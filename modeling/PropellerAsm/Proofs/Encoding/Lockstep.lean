import PropellerAsm.Proofs.Encoding.Variation

/-!
# Statements read side by side

Two readings of a statement that differ as a sound variation says ask for the same effect, or stop
at the same fault but for the texts that they quote.  So no bit of an instruction and no byte of
data depends on what the variation leaves open: the column of a word, say, or the number of a line.
-/
namespace PropellerAsm

/-- Cursors over words that stand for each other, with related tables. -/
structure Cursor.Varied (V : Variation) (c d : Cursor) : Prop where
  words : List.Forall₂ V.word c.words d.words
  symbols : V.table c.symbols d.symbols
  opcode : c.opcode = d.opcode
  augd : c.augd = d.augd
  augs : c.augs = d.augs

/-- The encoders of two readings. -/
def Variation.cursors (V : Variation) : Comparison Cursor Cursor where
  state := Cursor.Varied V
  stopped c d := V.stopped c.symbols d.symbols
  fault f f' := f.mapText V.view = f'.mapText V.view
  stop h := V.stop h.symbols

/-- Operand texts that stand for each other. -/
structure OperandText.Varied (V : Variation) (x y : OperandText) : Prop where
  text : V.text x.text y.text
  comma : x.comma = y.comma

/-- Operands with the same value, read from texts that stand for each other. -/
def Operand.Varied (V : Variation) (x y : Operand × OperandText) : Prop :=
  x.1 = y.1 ∧ OperandText.Varied V x.2 y.2

variable {V : Variation} {ctx : Context} {line' : Nat} (hV : V.Sound ctx.line line')

/-! ## Words -/

namespace OperandText

include hV

theorem joins_varied {v w : Word} (h : V.word v w) {x y : String} (htext : V.text x y) :
    joins x v = joins y w := by
  rw [hV.joins htext]
  unfold joins
  rw [← hV.token h]
  by_cases hplain : v.token = .plain
  · rw [hV.plain h hplain]
  · rw [beq_false_of_ne hplain]
    rfl

theorem extend_varied {words words' : List Word} (h : List.Forall₂ V.word words words')
    {x y : OperandText} (htext : x.Varied V y) :
    (extend x words).1.Varied V (extend y words').1 ∧
      List.Forall₂ V.word (extend x words).2 (extend y words').2 := by
  induction h generalizing x y with
  | nil => exact ⟨htext, .nil⟩
  | @cons v w rest rest' hword hrest ih =>
    rw [extend, extend, htext.comma, ← joins_varied hV hword htext.text]
    split
    · -- Only plain words are joined, and these are spelled the same.
      next hjoins =>
      have hjoins : joins x.text v = true := (Bool.and_eq_true_iff.mp hjoins).2
      have hplain : v.token = .plain := by
        unfold joins at hjoins
        exact eq_of_beq (Bool.and_eq_true_iff.mp hjoins).1
      apply ih
      rw [← hV.plain hword hplain]
      exact ⟨hV.append htext.text hjoins, hV.comma hword⟩
    · exact ⟨htext, .cons hword hrest⟩

/-- Either way there is no operand, or one that stands for the other. -/
theorem take?_varied {words words' : List Word} (h : List.Forall₂ V.word words words') :
    Option.Rel (fun x y => x.1.Varied V y.1 ∧ List.Forall₂ V.word x.2 y.2) (take? words)
      (take? words') := by
  cases h with
  | nil => exact .none
  | cons hword hrest =>
    rw [take?, take?, hV.token hword]
    split
    · exact .none
    · exact .some (extend_varied hV hrest ⟨hV.text hword, hV.comma hword⟩)

end OperandText

/-! ## Evaluation -/

include hV in
theorem Pointer.lockstep_encode (p : Pointer) :
    Lockstep V.tables Eq (p.encode ctx) (p.encode (ctx.onLine line')) := by
  unfold encode
  split
  · exact lockstep_pure rfl
  · refine (hV.evaluate (hV.same _) rfl).bind_same fun operand => ?_
    dsimp only
    split
    · exact lockstep_pure rfl
    · exact lockstep_throw rfl

/-! ## Encoders -/

namespace Encoder

theorem lockstep_run {α : Type} {m n : Encoder α} (h : Lockstep V.cursors Eq m n)
    {words words' : List Word} (hwords : List.Forall₂ V.word words words') (opcode : Opcode) :
    Lockstep V.tables (fun x y => x.1 = y.1 ∧ x.2.Varied V y.2) (m.run words opcode)
      (n.run words' opcode) := by
  intro t t' ht
  have hrun := h { words, symbols := t, opcode } { words := words', symbols := t', opcode }
    ⟨hwords, ht, rfl, rfl, rfl⟩
  unfold run
  generalize m { words, symbols := t, opcode } = x at hrun
  generalize n { words := words', symbols := t', opcode } = y at hrun
  cases hrun with
  | ok hresult hcursor => exact .ok ⟨hresult, hcursor⟩ hcursor.symbols
  | error hfault hstopped => exact .error hfault hstopped

theorem lockstep_peek? : Lockstep V.cursors (Option.Rel V.word) peek? peek? :=
  lockstep_get.bind fun _ _ hcursor => lockstep_pure (Word.head?_same hcursor.words)

theorem lockstep_skip : Lockstep V.cursors Eq skip skip :=
  lockstep_modify fun _ _ h => ⟨Word.tail_same h.words, h.symbols, h.opcode, h.augd, h.augs⟩

theorem lockstep_setField (f : Field) (value : Long) :
    Lockstep V.cursors Eq (setField f value) (setField f value) := by
  refine lockstep_modify fun c d h => ⟨h.words, h.symbols, ?_, h.augd, h.augs⟩
  show c.opcode.set f value = d.opcode.set f value
  rw [h.opcode]

theorem lockstep_setBit (f : Field) (b : Bool) :
    Lockstep V.cursors Eq (setBit f b) (setBit f b) := by
  unfold setBit
  split
  · exact lockstep_setField f 1
  · exact lockstep_pure rfl

/-! ### Operand fields -/

theorem lockstep_register (side : Side) (value : Quad) :
    Lockstep V.cursors Eq (register side value) (register side value) :=
  (lockstep_raiseIf Iff.rfl rfl).bind_same fun _ => lockstep_setField _ _

theorem lockstep_immediate (side : Side) (operand : Operand) :
    Lockstep V.cursors Eq (immediate side operand) (immediate side operand) := by
  unfold immediate
  split
  · exact (lockstep_setField _ _).bind_same fun _ => lockstep_pure rfl
  · exact (lockstep_setField _ _).bind_same fun _ => lockstep_pure rfl

theorem lockstep_putSource (operand : Operand) :
    Lockstep V.cursors Eq (putSource operand) (putSource operand) := by
  unfold putSource
  split
  · refine (lockstep_setField _ _).bind_same fun _ => ?_
    refine (lockstep_immediate .src operand).bind_same fun augs => lockstep_modify fun c d h => ?_
    exact ⟨h.words, h.symbols, h.opcode, h.augd, rfl⟩
  · exact lockstep_register _ _

theorem lockstep_setFlags (carry zero : Bool) :
    Lockstep V.cursors Eq (setFlags carry zero) (setFlags carry zero) :=
  (lockstep_setBit .carry carry).bind_same fun _ => lockstep_setBit .zero zero

include hV

theorem lockstep_operand? :
    Lockstep V.cursors (Option.Rel (OperandText.Varied V)) operand? operand? := by
  refine lockstep_get.bind fun c d hcursor => ?_
  have htake := OperandText.take?_varied hV hcursor.words
  generalize OperandText.take? c.words = x at htake
  generalize OperandText.take? d.words = y at htake
  cases htake with
  | none => exact lockstep_pure .none
  | @some x y h =>
    obtain ⟨operand, words⟩ := x
    obtain ⟨operand', words'⟩ := y
    obtain ⟨htext, hwords⟩ := h
    refine (lockstep_modify fun c d h => ?_).bind_same fun _ => lockstep_pure (.some htext)
    exact ⟨hwords, h.symbols, h.opcode, h.augd, h.augs⟩

theorem lockstep_operand (part : Part) :
    Lockstep V.cursors (OperandText.Varied V) (operand part) (operand part) := by
  refine (lockstep_operand? hV).bind fun text text' h => ?_
  cases h with
  | none => exact lockstep_throw rfl
  | some htext => exact lockstep_pure htext

theorem lockstep_expectComma {text text' : OperandText} (h : text.Varied V text') :
    Lockstep V.cursors Eq (expectComma text) (expectComma text') := by
  unfold expectComma
  rw [h.comma]
  split
  · exact lockstep_pure rfl
  · refine lockstep_peek?.bind fun word word' h => ?_
    cases h with
    | none => exact lockstep_throw rfl
    | some h => exact lockstep_throw (congrArg Fault.expectedComma (hV.view (hV.text h)))

theorem lockstep_finish : Lockstep V.cursors Eq finish finish := by
  refine lockstep_get.bind fun c d hcursor => ?_
  have hempty : c.words ≠ [] ↔ d.words ≠ [] := by
    rw [ne_eq, ne_eq, ← List.length_eq_zero_iff, hcursor.words.length_eq, List.length_eq_zero_iff]
  exact lockstep_raiseIf hempty
    (congrArg Fault.extraParameters (hV.view_intercalate hcursor.words " "))

theorem lockstep_mark {text text' : String} (h : V.text text text') (place : ImmediateMark) :
    Lockstep V.cursors Eq (mark text place) (mark text' place) := by
  cases place with
  | none => exact lockstep_throw (congrArg Fault.unexpectedImmediate (hV.view h))
  | immediate => exact lockstep_setField _ _
  | zero => exact lockstep_setField _ _

theorem lockstep_putDestination (place : ImmediateMark) (operand : Operand) {text text' : String}
    (h : V.text text text') :
    Lockstep V.cursors Eq (putDestination place operand text)
      (putDestination place operand text') := by
  unfold putDestination
  split
  · refine (lockstep_mark hV h place).bind_same fun _ => ?_
    refine (lockstep_immediate .dst operand).bind_same fun augd => lockstep_modify fun c d h => ?_
    exact ⟨h.words, h.symbols, h.opcode, rfl, h.augs⟩
  · exact lockstep_register _ _

theorem lockstep_evaluate {text text' : String} (h : V.text text text') :
    Lockstep V.cursors Eq (evaluate ctx text) (evaluate (ctx.onLine line') text') := by
  intro c d hcursor
  have hrun := hV.evaluate h rfl c.symbols d.symbols hcursor.symbols
  unfold evaluate
  generalize Operand.evaluate ctx text c.symbols = x at hrun
  generalize Operand.evaluate (ctx.onLine line') text' d.symbols = y at hrun
  cases hrun with
  | ok hresult ht =>
    exact .ok hresult ⟨hcursor.words, ht, hcursor.opcode, hcursor.augd, hcursor.augs⟩
  | error hfault hstopped => exact .error hfault hstopped

theorem lockstep_value (part : Part) :
    Lockstep V.cursors (Operand.Varied V) (value ctx part) (value (ctx.onLine line') part) :=
  (lockstep_operand hV part).bind fun _ _ htext =>
    (lockstep_evaluate hV htext.text).bind_same fun _ => lockstep_pure ⟨rfl, htext⟩

theorem lockstep_dst (place : ImmediateMark) :
    Lockstep V.cursors (OperandText.Varied V) (dst ctx place) (dst (ctx.onLine line') place) := by
  refine (lockstep_value hV .destination).bind ?_
  rintro ⟨operand, text⟩ ⟨_, text'⟩ ⟨rfl, htext⟩
  exact (lockstep_putDestination hV place operand htext.text).bind_same fun _ =>
    lockstep_pure htext

theorem lockstep_src :
    Lockstep V.cursors (OperandText.Varied V) (src ctx) (src (ctx.onLine line')) := by
  refine (lockstep_value hV .source).bind ?_
  rintro ⟨operand, text⟩ ⟨_, text'⟩ ⟨rfl, htext⟩
  exact (lockstep_putSource operand).bind_same fun _ => lockstep_pure htext

theorem lockstep_pointerField? {text text' : String} (h : V.text text text') :
    Lockstep V.cursors Eq (pointerField? ctx text) (pointerField? (ctx.onLine line') text') := by
  intro c d hcursor
  unfold pointerField?
  rw [hV.pointer h]
  cases Pointer.parse? text' with
  | none => exact .ok rfl hcursor
  | some p =>
    have hrun := Pointer.lockstep_encode hV p c.symbols d.symbols hcursor.symbols
    dsimp only
    generalize p.encode ctx c.symbols = x at hrun
    generalize p.encode (ctx.onLine line') d.symbols = y at hrun
    cases hrun with
    | ok hresult ht =>
      exact .ok (congrArg some hresult)
        ⟨hcursor.words, ht, hcursor.opcode, hcursor.augd, hcursor.augs⟩
    | error hfault hstopped => exact .error hfault hstopped

theorem lockstep_putPointerOr {text text' : String} (h : V.text text text')
    (field : Option Long) :
    Lockstep V.cursors Eq (putPointerOr ctx text field)
      (putPointerOr (ctx.onLine line') text' field) := by
  cases field with
  | some field => exact (lockstep_setField _ _).bind_same fun _ => lockstep_setField _ _
  | none =>
    exact (lockstep_evaluate hV h).bind_same fun operand => lockstep_putSource operand

theorem lockstep_source (pointer : Bool) :
    Lockstep V.cursors (OperandText.Varied V) (source ctx pointer)
      (source (ctx.onLine line') pointer) := by
  unfold source
  split
  · refine (lockstep_operand hV .source).bind fun text text' htext => ?_
    refine (lockstep_pointerField? hV htext.text).bind_same fun field => ?_
    exact (lockstep_putPointerOr hV htext.text field).bind_same fun _ => lockstep_pure htext
  · exact lockstep_src hV

theorem lockstep_sourceAfter (pointer : Bool) (value : Quad) {text text' : OperandText}
    (h : text.Varied V text') :
    Lockstep V.cursors Eq (sourceAfter ctx pointer value text)
      (sourceAfter (ctx.onLine line') pointer value text') := by
  unfold sourceAfter
  rw [h.comma]
  split
  · exact (lockstep_source hV pointer).bind fun _ _ _ => lockstep_pure rfl
  · refine lockstep_peek?.bind fun word word' h => ?_
    cases h with
    | none => exact lockstep_register _ _
    | some h =>
      dsimp only
      rw [hV.token h]
      split
      · exact lockstep_throw (congrArg Fault.expectedComma (hV.view (hV.text h)))
      · exact lockstep_register _ _

theorem lockstep_dstSrc (pointer : Bool) :
    Lockstep V.cursors Eq (dstSrc ctx pointer) (dstSrc (ctx.onLine line') pointer) := by
  refine (lockstep_value hV .destination).bind ?_
  rintro ⟨operand, text⟩ ⟨_, text'⟩ ⟨rfl, htext⟩
  have hquote := congrArg Fault.unexpectedImmediate (hV.view htext.text)
  refine (lockstep_raiseIf Iff.rfl hquote).bind_same fun _ => ?_
  exact (lockstep_register _ _).bind_same fun _ =>
    lockstep_sourceAfter hV pointer operand.value htext

theorem lockstep_requireImmediate (part : Part) :
    Lockstep V.cursors Eq (requireImmediate ctx part)
      (requireImmediate (ctx.onLine line') part) := by
  refine (lockstep_value hV part).bind ?_
  rintro ⟨operand, text⟩ ⟨_, text'⟩ ⟨rfl, htext⟩
  have hquote := congrArg Fault.expectedImmediate (hV.view htext.text)
  exact (lockstep_raiseIf Iff.rfl hquote).bind_same fun _ => lockstep_pure rfl

theorem lockstep_laneIndex (lane : Lane) :
    Lockstep V.cursors Eq (laneIndex ctx lane) (laneIndex (ctx.onLine line') lane) :=
  (lockstep_requireImmediate hV .index).bind_same fun _ =>
    (lockstep_raiseIf Iff.rfl rfl).bind_same fun _ => lockstep_setField _ _

theorem lockstep_pointerRegister :
    Lockstep V.cursors (OperandText.Varied V) pointerRegister pointerRegister := by
  refine (lockstep_operand hV .pointerRegister).bind fun text text' htext => ?_
  have hpointer : Keyword.pointer? text.text = Keyword.pointer? text'.text := by
    unfold Keyword.pointer?
    rw [hV.find? htext.text]
  rw [hpointer]
  split
  · exact (lockstep_setField _ _).bind_same fun _ => lockstep_pure htext
  · exact lockstep_throw (congrArg Fault.invalidPointer (hV.view htext.text))

theorem lockstep_address :
    Lockstep V.cursors Eq (address ctx) (address (ctx.onLine line')) := by
  refine (lockstep_requireImmediate hV .address).bind_same fun operand => ?_
  refine (lockstep_raiseIf Iff.rfl rfl).bind_same fun _ => ?_
  refine lockstep_ite Iff.rfl ?_ (lockstep_setField _ _)
  exact (lockstep_setField _ _).bind_same fun _ => lockstep_setField _ _

theorem lockstep_augment :
    Lockstep V.cursors Eq (augment ctx) (augment (ctx.onLine line')) :=
  (lockstep_requireImmediate hV .augmentValue).bind_same fun _ => lockstep_setField _ _

theorem lockstep_modczParameter :
    Lockstep V.cursors (fun x y => x.1 = y.1 ∧ x.2.Varied V y.2) (modczParameter ctx)
      (modczParameter (ctx.onLine line')) := by
  refine (lockstep_operand hV .modczParameter).bind fun text text' htext => ?_
  rw [hV.find? htext.text]
  split
  · exact lockstep_pure ⟨rfl, htext⟩
  · exact lockstep_throw (congrArg Fault.invalidModcz (hV.view htext.text))
  · refine (lockstep_evaluate hV htext.text).bind_same fun operand => ?_
    exact (lockstep_raiseIf Iff.rfl rfl).bind_same fun _ => lockstep_pure ⟨rfl, htext⟩

theorem lockstep_modifyFlags (target : FlagTarget) :
    Lockstep V.cursors Eq (modifyFlags ctx target) (modifyFlags (ctx.onLine line') target) := by
  cases target with
  | both =>
    refine (lockstep_modczParameter hV).bind ?_
    rintro ⟨carry, text⟩ ⟨_, text'⟩ ⟨rfl, htext⟩
    refine (lockstep_expectComma hV htext).bind_same fun _ => ?_
    refine (lockstep_modczParameter hV).bind ?_
    rintro ⟨zero, _⟩ ⟨_, _⟩ ⟨rfl, -⟩
    exact lockstep_setField _ _
  | carry =>
    refine (lockstep_modczParameter hV).bind ?_
    rintro ⟨carry, _⟩ ⟨_, _⟩ ⟨rfl, -⟩
    exact lockstep_setField _ _
  | zero =>
    refine (lockstep_modczParameter hV).bind ?_
    rintro ⟨zero, _⟩ ⟨_, _⟩ ⟨rfl, -⟩
    exact lockstep_setField _ _

/-! ### Flag updates -/

theorem lockstep_flags (rule : Option FlagRule) :
    Lockstep V.cursors Eq (flags rule) (flags rule) := by
  cases rule with
  | none => exact lockstep_finish hV
  | some rule =>
    refine lockstep_peek?.bind fun word word' h => ?_
    cases h with
    | none => exact lockstep_finish hV
    | some h =>
      have hquote := congrArg (Fault.unexpectedFlag · rule) (hV.view (hV.text h))
      dsimp only
      rw [hV.token h]
      split
      · split
        · refine (lockstep_setFlags _ _).bind_same fun _ => ?_
          exact lockstep_skip.bind_same fun _ => lockstep_finish hV
        · exact lockstep_throw hquote
      · exact lockstep_throw hquote

theorem lockstep_testFlag (f : Field) :
    Lockstep V.cursors Eq (testFlag f) (testFlag f) := by
  refine lockstep_peek?.bind fun word word' h => ?_
  cases h with
  | none => exact lockstep_throw rfl
  | some h =>
    have hquote := congrArg Fault.unexpectedTestFlag (hV.view (hV.text h))
    dsimp only
    rw [hV.token h]
    split
    · split
      · refine (lockstep_setFlags _ _).bind_same fun _ => lockstep_skip.bind_same fun _ => ?_
        refine lockstep_modify fun c d h => ⟨h.words, h.symbols, ?_, h.augd, h.augs⟩
        show c.opcode.add f _ = d.opcode.add f _
        rw [h.opcode]
      · exact lockstep_throw hquote
    · exact lockstep_throw hquote

end Encoder

/-! ## Instructions -/

namespace Instruction

/-- The words play the same part in the choice of a form. -/
structure ChosenAlike (v w : Word) : Prop where
  token : v.token = w.token
  comma : v.comma = w.comma
  immediate : isImmediate v = isImmediate w

theorem any_comma_alike {words words' : List Word} (h : List.Forall₂ ChosenAlike words words') :
    words.any (·.comma) = words'.any (·.comma) := by
  induction h with
  | nil => rfl
  | cons hword _ ih => rw [List.any_cons, List.any_cons, hword.comma, ih]

theorem isPointerRegister_alike {v w : Word} (h : ChosenAlike v w) :
    isPointerRegister v = isPointerRegister w := by
  unfold isPointerRegister
  rw [h.token]

theorem wantsSecondForm_alike {words words' : List Word}
    (h : List.Forall₂ ChosenAlike words words') (shape : Shape) :
    wantsSecondForm words shape = wantsSecondForm words' shape := by
  have hhead := Word.head?_same h
  have hsecond := Word.head?_same (Word.tail_same h)
  rw [List.head?_tail, List.head?_tail] at hsecond
  unfold wantsSecondForm
  rw [any_comma_alike h, Word.any_same hhead fun _ _ => ChosenAlike.immediate,
    Word.any_same hhead fun _ _ => isPointerRegister_alike,
    Word.any_same hsecond fun _ _ => ChosenAlike.immediate]
  have hflag : words.head?.all (·.token.isFlag) = words'.head?.all (·.token.isFlag) := by
    generalize words.head? = x at hhead
    generalize words'.head? = y at hhead
    cases hhead with
    | none => rfl
    | some hword => exact congrArg Token.isFlag hword.token
  rw [hflag]

/-- The operand words select the same form. -/
theorem selectForm_alike {words words' : List Word} (h : List.Forall₂ ChosenAlike words words')
    (mnemonic : String) (form : Form) :
    selectForm mnemonic form words = selectForm mnemonic form words' := by
  rw [selectForm, wantsSecondForm_alike h]
  rfl

include hV

theorem chosenAlike_varied {v w : Word} (h : V.word v w) : ChosenAlike v w where
  token := hV.token h
  comma := hV.comma h
  immediate := hV.sigil (hV.text h)

open Encoder in
theorem lockstep_operands (shape : Shape) :
    Lockstep V.cursors Eq (operands ctx shape) (operands (ctx.onLine line') shape) := by
  cases shape with
  | nop =>
    refine (lockstep_modify fun c d h => ?_).bind_same fun _ => lockstep_finish hV
    exact ⟨h.words, h.symbols, rfl, h.augd, h.augs⟩
  | bare rule => exact lockstep_flags hV rule
  | dst place rule => exact (lockstep_dst hV place).bind fun _ _ _ => lockstep_flags hV rule
  | testPin =>
    refine (lockstep_dst hV .immediate).bind fun _ _ _ => ?_
    exact (lockstep_testFlag hV .source).bind_same fun _ => lockstep_finish hV
  | src => exact (lockstep_src hV).bind fun _ _ _ => lockstep_finish hV
  | dstSrc pointer rule =>
    exact (lockstep_dstSrc hV pointer).bind_same fun _ => lockstep_flags hV rule
  | testBit =>
    refine (lockstep_dstSrc hV false).bind_same fun _ => ?_
    exact (lockstep_testFlag hV .operation).bind_same fun _ => lockstep_finish hV
  | both pointer rule =>
    refine (lockstep_dst hV .zero).bind fun _ _ htext => ?_
    refine (lockstep_expectComma hV htext).bind_same fun _ => ?_
    exact (lockstep_source hV pointer).bind fun _ _ _ => lockstep_flags hV rule
  | lane l =>
    refine (lockstep_dst hV .none).bind fun _ _ hdst => ?_
    refine (lockstep_expectComma hV hdst).bind_same fun _ => ?_
    refine (lockstep_src hV).bind fun _ _ hsrc => ?_
    refine (lockstep_expectComma hV hsrc).bind_same fun _ => ?_
    exact (lockstep_laneIndex hV l).bind_same fun _ => lockstep_finish hV
  | alter =>
    refine (lockstep_dst hV .none).bind fun _ _ htext => ?_
    refine (lockstep_expectComma hV htext).bind_same fun _ => ?_
    exact (lockstep_src hV).bind fun _ _ _ => lockstep_finish hV
  | jump => exact (lockstep_dst hV .none).bind fun _ _ _ => lockstep_flags hV _
  | callD => exact (lockstep_dstSrc hV false).bind_same fun _ => lockstep_flags hV _
  | getRnd => exact (lockstep_dst hV .none).bind fun _ _ _ => lockstep_flags hV _
  | pointerAddress =>
    refine (lockstep_pointerRegister hV).bind fun _ _ htext => ?_
    refine (lockstep_expectComma hV htext).bind_same fun _ => ?_
    exact (lockstep_address hV).bind_same fun _ => lockstep_finish hV
  | address => exact (lockstep_address hV).bind_same fun _ => lockstep_finish hV
  | augment => exact (lockstep_augment hV).bind_same fun _ => lockstep_finish hV
  | modify target =>
    exact (lockstep_modifyFlags hV target).bind_same fun _ => lockstep_flags hV _

theorem lockstep_encode {words words' : List Word} (hwords : List.Forall₂ V.word words words')
    {mnemonic mnemonic' : String} (hmnemonic : V.text mnemonic mnemonic') (form : Form)
    (cond : Condition) :
    Lockstep V.tables Eq (encode ctx mnemonic form cond words)
      (encode (ctx.onLine line') mnemonic' form cond words') := by
  have hform : selectForm mnemonic form words = selectForm mnemonic' form words' := by
    rw [selectForm_alike (hwords.imp fun _ _ => chosenAlike_varied hV)]
    unfold selectForm
    rw [hV.secondForm? hmnemonic]
  unfold encode
  rw [hform]
  refine (Encoder.lockstep_run (lockstep_operands hV _) hwords _).bind ?_
  rintro ⟨_, c⟩ ⟨_, d⟩ ⟨-, hcursor⟩
  apply lockstep_pure
  rw [hcursor.augd, hcursor.augs, hcursor.opcode]

end Instruction

/-! ## Directives -/

namespace Directive

variable {words words' : List Word} (hwords : List.Forall₂ V.word words words')

include hwords in
/-- The result of an encoder over the words of a directive. -/
theorem lockstep_result {α : Type} {m n : Encoder α} (h : Lockstep V.cursors Eq m n) :
    Lockstep V.tables Eq (do return (← m.run words {}).1) (do return (← n.run words' {}).1) :=
  (Encoder.lockstep_run h hwords {}).bind fun _ _ hresult => lockstep_pure hresult.1

include hV

theorem lockstep_item (size : Nat) {text text' : String} (h : V.text text text') :
    Lockstep V.cursors Eq (item ctx size text) (item (ctx.onLine line') size text') := by
  unfold item
  rw [hV.string h]
  split
  · exact lockstep_pure rfl
  · exact (Encoder.lockstep_evaluate hV h).bind_same fun _ => lockstep_pure rfl

theorem lockstep_items (size bound : Nat) :
    Lockstep V.cursors Eq (items ctx size bound) (items (ctx.onLine line') size bound) := by
  induction bound with
  | zero => exact lockstep_pure rfl
  | succ bound ih =>
    refine (Encoder.lockstep_operand hV .data).bind fun text text' htext => ?_
    refine (lockstep_item hV size htext.text).bind_same fun bytes => ?_
    rw [htext.comma]
    exact lockstep_ite Iff.rfl (ih.bind_same fun _ => lockstep_pure rfl) (lockstep_pure rfl)

include hwords

theorem lockstep_data (size : Nat) :
    Lockstep V.tables Eq (data ctx size words) (data (ctx.onLine line') size words') := by
  unfold data
  rw [hwords.length_eq]
  refine lockstep_result hwords ?_
  refine (lockstep_items hV size _).bind_same fun _ => ?_
  exact (Encoder.lockstep_finish hV).bind_same fun _ => lockstep_pure rfl

theorem lockstep_argument? :
    Lockstep V.tables Eq (argument? ctx words) (argument? (ctx.onLine line') words') := by
  refine lockstep_result hwords ((Encoder.lockstep_operand? hV).bind fun text text' h => ?_)
  cases h with
  | some htext =>
    refine (Encoder.lockstep_evaluate hV htext.text).bind_same fun _ => ?_
    exact (Encoder.lockstep_finish hV).bind_same fun _ => lockstep_pure rfl
  | none => exact (Encoder.lockstep_finish hV).bind_same fun _ => lockstep_pure rfl

theorem lockstep_assigned :
    Lockstep V.tables Eq (assigned ctx words) (assigned (ctx.onLine line') words') := by
  refine lockstep_result hwords ((Encoder.lockstep_value hV .expression).bind ?_)
  rintro ⟨operand, _⟩ ⟨_, _⟩ ⟨rfl, -⟩
  exact (Encoder.lockstep_finish hV).bind_same fun _ => lockstep_pure rfl

end Directive

/-! ## Statements -/

namespace Statement

include hV in
theorem lockstep_refuse {g g' : Guard} (h : Option.Rel V.word g.word g'.word) :
    Lockstep V.tables Eq g.refuse g'.refuse := by
  unfold Guard.refuse
  generalize g.word = x at h
  generalize g'.word = y at h
  cases h with
  | none => exact lockstep_pure rfl
  | some hword =>
    exact lockstep_throw (congrArg Fault.conditionBeforeDirective (hV.view (hV.text hword)))

include hV in
theorem lockstep_isConstant (name : String) :
    Lockstep V.tables Eq (isConstant ctx name) (isConstant (ctx.onLine line') name) := by
  refine lockstep_get.bind fun t t' ht => lockstep_pure ?_
  -- A name has a value if and only if looking it up gives one.
  have hlookup : ∀ (t : SymbolTable) (full : String),
      (t.get? full).any (·.isDefined) = (t.lookup full).value.isDefined := by
    intro t full
    unfold SymbolTable.lookup
    cases t.get? full with
    | none => rfl
    | some s => rfl
  rw [hlookup, hlookup, hV.value ht]
  rfl

variable {words words' : List Word} (hwords : List.Forall₂ V.word words words')

include hV hwords

/-- A directive that checks its argument and then returns an effect. -/
theorem lockstep_checked {c : Option Quad → Prop} [∀ x, Decidable (c x)]
    (f : Option Quad → Fault) (e : Option Quad → Effect) :
    Lockstep V.tables Eq (do
        let x ← Directive.argument? ctx words
        Fault.raiseIf (c x) (f x)
        return e x)
      (do
        let x ← Directive.argument? (ctx.onLine line') words'
        Fault.raiseIf (c x) (f x)
        return e x) :=
  (Directive.lockstep_argument? hV hwords).bind_same fun _ =>
    (lockstep_raiseIf Iff.rfl rfl).bind_same fun _ => lockstep_pure rfl

theorem lockstep_fill :
    Lockstep V.tables Eq (fill ctx words) (fill (ctx.onLine line') words') := by
  refine (Directive.lockstep_argument? hV hwords).bind_same fun target => ?_
  cases target with
  | none => exact lockstep_throw rfl
  | some target =>
    refine (lockstep_raiseIf Iff.rfl rfl).bind_same fun _ => ?_
    exact (lockstep_raiseIf Iff.rfl rfl).bind_same fun _ => lockstep_pure rfl

theorem lockstep_align (size : Nat) :
    Lockstep V.tables Eq (align ctx size words) (align (ctx.onLine line') size words') := by
  cases hwords with
  | cons hword _ =>
    exact lockstep_throw (congrArg Fault.extraParameters (hV.view (hV.text hword)))
  | nil => exact lockstep_ite Iff.rfl (lockstep_pure rfl) (lockstep_pure rfl)

theorem lockstep_directive (d : Directive) :
    Lockstep V.tables Eq (directive ctx words d) (directive (ctx.onLine line') words' d) := by
  cases d with
  | byte =>
    exact (Directive.lockstep_data hV hwords 1).bind_same fun _ => lockstep_pure rfl
  | word =>
    exact (Directive.lockstep_data hV hwords 2).bind_same fun _ => lockstep_pure rfl
  | long =>
    exact (Directive.lockstep_data hV hwords 4).bind_same fun _ => lockstep_pure rfl
  | res => exact lockstep_checked hV hwords _ _
  | fit => exact lockstep_checked hV hwords _ _
  | org => exact lockstep_checked hV hwords _ _
  | orgh => exact lockstep_checked hV hwords _ _
  | orgf => exact lockstep_fill hV hwords
  | alignw => exact lockstep_align hV hwords 2
  | alignl => exact lockstep_align hV hwords 4

theorem lockstep_assignment (labelled : Bool) :
    Lockstep V.tables Eq (assignment ctx labelled words)
      (assignment (ctx.onLine line') labelled words') :=
  (lockstep_raiseIf Iff.rfl rfl).bind_same fun _ =>
    (Directive.lockstep_assigned hV hwords).bind_same fun _ => lockstep_pure rfl

/-- The same condition is taken, or a second one is refused. -/
theorem takeCondition_varied :
    (∃ f f', takeCondition words = .error f ∧ takeCondition words' = .error f' ∧
      f.mapText V.view = f'.mapText V.view) ∨
    ∃ g g' rest rest', takeCondition words = .ok (g, rest) ∧
      takeCondition words' = .ok (g', rest') ∧ g.code = g'.code ∧
      Option.Rel V.word g.word g'.word ∧ List.Forall₂ V.word rest rest' := by
  cases hwords with
  | nil => exact .inr ⟨_, _, _, _, rfl, rfl, rfl, .none, .nil⟩
  | @cons v w rest rest' hword hrest =>
    unfold takeCondition
    dsimp only
    rw [hV.token hword]
    split
    · cases hrest with
      | nil => exact .inr ⟨_, _, _, _, rfl, rfl, rfl, .some hword, .nil⟩
      | cons hnext hmore =>
        dsimp only
        rw [hV.token hnext]
        split
        · exact .inl ⟨_, _, rfl, rfl,
            congrArg Fault.multipleConditions (hV.view (hV.text hnext))⟩
        · exact .inr ⟨_, _, _, _, rfl, rfl, rfl, .some hword, .cons hnext hmore⟩
    · exact .inr ⟨_, _, _, _, rfl, rfl, rfl, .none, .cons hword hrest⟩

/-- Both readings of a statement ask for the same effect, or stop at the same fault, but for the
texts that they quote. -/
theorem lockstep_effect (labelled : Bool) :
    Lockstep V.tables (fun e e' => e.mapText V.view = e'.mapText V.view)
      (effect ctx labelled words) (effect (ctx.onLine line') labelled words') := by
  unfold effect
  obtain ⟨f, f', htake, htake', hfault⟩ | ⟨g, g', _, _, htake, htake', hcode, hguard, hrest⟩ :=
    takeCondition_varied hV hwords
  · rw [htake, htake']
    exact lockstep_throw hfault
  rw [htake, htake']
  cases hrest with
  | nil => exact lockstep_pure rfl
  | @cons first first' _ _ hfirst hrest =>
    have htext := hV.text hfirst
    have hsame : ∀ e e' : Effect, e = e' → e.mapText V.view = e'.mapText V.view :=
      fun _ _ => congrArg (Effect.mapText V.view)
    dsimp only
    rw [hV.token hfirst, hcode]
    -- The first word behind the condition says how the others are read.
    split
    · refine (Instruction.lockstep_encode hV hrest htext _ _).bind_same fun e => ?_
      exact lockstep_pure (congrArg (Effect.code · e) (hV.view htext))
    · refine ((lockstep_refuse hV hguard).bind_same fun _ => ?_).imp hsame
      exact lockstep_directive hV hrest _
    · refine ((lockstep_refuse hV hguard).bind_same fun _ => ?_).imp hsame
      exact lockstep_assignment hV hrest labelled
    · exact lockstep_throw (congrArg Fault.strayModcz (hV.view htext))
    · next htoken =>
      rw [hV.plain hfirst ((hV.token hfirst).trans htoken)]
      refine (lockstep_isConstant hV _).bind_same fun _ => ?_
      exact (lockstep_raiseIf Iff.rfl rfl).bind_same fun _ => lockstep_throw rfl
    · exact lockstep_throw (congrArg Fault.notAnInstruction (hV.view htext))

end Statement

end PropellerAsm
