import PropellerAsm.Encoding
import PropellerAsm.Encoding.Data
import PropellerAsm.Proofs.Computation
import PropellerAsm.Proofs.Expr.Evaluation
import PropellerAsm.Proofs.Instruction.Shape

/-!
# What an encoder touches

Every run of an encoder, faulty or not, does three things only: it takes words off the front, it
records uses on the line in the symbol table, and it writes some fields of the instruction.
`Shape.fields` lists the fields that the operands of a shape can write; each encoder is shown to
stay within the fields it is given.
-/
namespace PropellerAsm

/-! ## Evaluation -/

namespace SymbolTable

theorem recorded_addReference (t : SymbolTable) (line : Nat) (name : String) :
    Recorded line t (t.addReference line name) :=
  ⟨[name], rfl⟩

end SymbolTable

open SymbolTable (Recorded)

theorem Context.keeps_resolve (ctx : Context) (name : String) :
    Keeps (Recorded ctx.line) (ctx.resolve name) := by
  unfold resolve
  split
  · exact keeps_pure _
  · exact keeps_pure _
  · exact keeps_throw _
  · refine keeps_bind (keeps_modify ?_) fun _ => keeps_bind keeps_get fun t => keeps_pure _
    exact fun t => t.recorded_addReference ctx.line _

theorem Expr.keeps_eval (ctx : Context) (e : Expr) : Keeps (Recorded ctx.line) (e.eval ctx) := by
  induction e with
  | literal value => exact keeps_pure _
  | here => exact keeps_pure _
  | name text => exact ctx.keeps_resolve text
  | unary op e ih => exact keeps_bind ih fun x => keeps_pure _
  | binary op l r ihl ihr =>
    refine keeps_bind ihl fun x => keeps_bind ihr fun y => ?_
    cases op.apply x y with
    | ok z => exact keeps_pure z
    | error f => exact keeps_throw f
  | fault f => exact keeps_throw f
  | followed e f ih => exact keeps_bind ih fun x => keeps_throw f

theorem Operand.keeps_evaluate (ctx : Context) (text : String) :
    Keeps (Recorded ctx.line) (Operand.evaluate ctx text) :=
  keeps_bind ((parse text).2.keeps_eval ctx) fun _ => keeps_pure _

theorem Pointer.keeps_encode (ctx : Context) (p : Pointer) :
    Keeps (Recorded ctx.line) (p.encode ctx) := by
  unfold encode
  split
  · exact keeps_pure _
  · refine keeps_bind (Operand.keeps_evaluate ctx _) fun operand => ?_
    dsimp only
    split
    · exact keeps_pure _
    · exact keeps_throw _

/-! ## Cursors -/

/-- Words have been taken off, uses on a line have been recorded, and no bit outside the fields has
changed. -/
structure Cursor.Touched (line : Nat) (fields : List Field) (c c' : Cursor) : Prop where
  words : c'.words <:+ c.words
  symbols : Recorded line c.symbols c'.symbols
  bits : ∀ i, (∀ f ∈ fields, ¬ f.Covers i) →
    c'.opcode.word.getLsbD i = c.opcode.word.getLsbD i

instance (line : Nat) (fields : List Field) : IsPreorder Cursor (Cursor.Touched line fields) where
  refl c := ⟨List.suffix_refl _, refl_of (Recorded line) c.symbols, fun _ _ => rfl⟩
  trans _ _ _ h h' :=
    ⟨h'.words.trans h.words, trans_of (Recorded line) h.symbols h'.symbols,
      fun i hi => (h'.bits i hi).trans (h.bits i hi)⟩

namespace Encoder

open Cursor (Touched)

variable {ctx : Context} {line : Nat} {fields : List Field}

/-- Symbols and instruction are as they were. -/
theorem touched_of_suffix {c c' : Cursor} (hwords : c'.words <:+ c.words)
    (hsymbols : c'.symbols = c.symbols) (hopcode : c'.opcode = c.opcode) :
    Touched line fields c c' := by
  refine ⟨hwords, ?_, ?_⟩
  · rw [hsymbols]
    exact refl_of (Recorded line) c.symbols
  · intro i _
    rw [hopcode]

/-- Evaluation as part of an encoder. -/
theorem keeps_evaluate (ctx : Context) (text : String) :
    Keeps (Touched ctx.line fields) (evaluate ctx text) := by
  intro c
  have hkeeps := Operand.keeps_evaluate ctx text
  unfold evaluate
  cases h : Operand.evaluate ctx text c.symbols with
  | ok operand symbols => exact ⟨List.suffix_refl _, hkeeps.of_ok h, fun _ _ => rfl⟩
  | error f symbols => exact ⟨List.suffix_refl _, hkeeps.of_error h, fun _ _ => rfl⟩

/-! ## Words -/

theorem extend_suffix (operand : OperandText) (words : List Word) :
    (operand.extend words).2 <:+ words := by
  induction words generalizing operand with
  | nil => exact List.suffix_refl _
  | cons word words ih =>
    rw [OperandText.extend]
    split
    · exact (ih _).trans (List.suffix_cons word words)
    · exact List.suffix_refl _

theorem take?_suffix {words rest : List Word} {text : OperandText}
    (h : OperandText.take? words = some (text, rest)) : rest <:+ words := by
  cases words with
  | nil => cases h
  | cons word words =>
    rw [OperandText.take?] at h
    split at h
    · cases h
    · have hextend := extend_suffix ⟨word.text, word.comma⟩ words
      rw [Option.some.inj h] at hextend
      exact hextend.trans (List.suffix_cons word words)

theorem keeps_operand? : Keeps (Touched line fields) operand? := by
  intro c
  have hget : (get : Encoder Cursor) c = .ok c c := rfl
  unfold operand?
  rw [bind_of_ok hget]
  cases htake : OperandText.take? c.words with
  | none => exact refl_of (Touched line fields) c
  | some result =>
    obtain ⟨text, rest⟩ := result
    exact touched_of_suffix (take?_suffix htake) rfl rfl

theorem keeps_operand (part : Part) : Keeps (Touched line fields) (operand part) := by
  refine keeps_bind keeps_operand? fun text => ?_
  cases text with
  | some text => exact keeps_pure text
  | none => exact keeps_throw _

theorem keeps_value (ctx : Context) (part : Part) :
    Keeps (Touched ctx.line fields) (value ctx part) :=
  keeps_bind (keeps_operand part) fun text =>
    keeps_bind (keeps_evaluate ctx text.text) fun _ => keeps_pure _

theorem keeps_peek? : Keeps (Touched line fields) peek? :=
  keeps_bind keeps_get fun _ => keeps_pure _

theorem keeps_skip : Keeps (Touched line fields) skip :=
  keeps_modify fun c => touched_of_suffix (List.tail_suffix c.words) rfl rfl

theorem keeps_expectComma (text : OperandText) :
    Keeps (Touched line fields) (expectComma text) := by
  unfold expectComma
  split
  · exact keeps_pure _
  · refine keeps_bind keeps_peek? fun word => ?_
    cases word with
    | some word => exact keeps_throw _
    | none => exact keeps_throw _

theorem keeps_finish : Keeps (Touched line fields) finish :=
  keeps_bind keeps_get fun _ => keeps_raiseIf _ _

/-! ## Fields -/

theorem touched_set {f : Field} (hf : f ∈ fields) (c : Cursor) (value : Long) :
    Touched line fields c { c with opcode := c.opcode.set f value } := by
  refine ⟨List.suffix_refl _, refl_of (Recorded line) c.symbols, ?_⟩
  intro i hi
  rw [Opcode.getLsbD_set]
  exact if_neg (hi f hf)

theorem keeps_setField {f : Field} (hf : f ∈ fields) (value : Long) :
    Keeps (Touched line fields) (setField f value) :=
  keeps_modify fun c => touched_set hf c value

theorem keeps_setBit {f : Field} {b : Bool} (hf : b = true → f ∈ fields) :
    Keeps (Touched line fields) (setBit f b) := by
  unfold setBit
  split
  · rename_i hb
    exact keeps_setField (hf hb) 1
  · exact keeps_pure _

/-! ## Destination and source -/

theorem keeps_register (side : Side) (hside : side.field ∈ fields) (value : Quad) :
    Keeps (Touched line fields) (register side value) :=
  keeps_bind (keeps_raiseIf _ _) fun _ => keeps_setField hside _

theorem keeps_immediate (side : Side) (hside : side.field ∈ fields) (operand : Operand) :
    Keeps (Touched line fields) (immediate side operand) := by
  unfold immediate
  split
  · exact keeps_bind (keeps_setField hside _) fun _ => keeps_pure _
  · exact keeps_bind (keeps_setField hside _) fun _ => keeps_pure _

theorem keeps_mark (text : String) (place : ImmediateMark) (hplace : place.fields ⊆ fields) :
    Keeps (Touched line fields) (mark text place) := by
  cases place with
  | none => exact keeps_throw _
  | immediate => exact keeps_setField (hplace (List.mem_singleton.mpr rfl)) 1
  | zero => exact keeps_setField (hplace (List.mem_singleton.mpr rfl)) 1

theorem keeps_dst (ctx : Context) (place : ImmediateMark) (hdst : .destination ∈ fields)
    (hplace : place.fields ⊆ fields) : Keeps (Touched ctx.line fields) (dst ctx place) := by
  refine keeps_bind (keeps_value ctx _) ?_
  rintro ⟨operand, text⟩
  refine keeps_bind ?_ fun _ => keeps_pure _
  unfold putDestination
  split
  · refine keeps_bind (keeps_mark _ place hplace) fun _ => ?_
    refine keeps_bind (keeps_immediate .dst hdst operand) fun augd => ?_
    exact keeps_modify fun c => touched_of_suffix (List.suffix_refl _) rfl rfl
  · exact keeps_register .dst hdst _

theorem keeps_putSource (hsource : Field.sourceFields ⊆ fields) (operand : Operand) :
    Keeps (Touched line fields) (putSource operand) := by
  have himmediate : Field.immediate ∈ fields := hsource (by decide)
  have hfield : Side.src.field ∈ fields := hsource (by decide)
  unfold putSource
  split
  · refine keeps_bind (keeps_setField himmediate 1) fun _ => ?_
    refine keeps_bind (keeps_immediate .src hfield operand) fun augs => ?_
    exact keeps_modify fun c => touched_of_suffix (List.suffix_refl _) rfl rfl
  · exact keeps_register .src hfield _

theorem keeps_src (ctx : Context) (hsource : Field.sourceFields ⊆ fields) :
    Keeps (Touched ctx.line fields) (src ctx) := by
  refine keeps_bind (keeps_value ctx _) ?_
  rintro ⟨operand, text⟩
  exact keeps_bind (keeps_putSource hsource operand) fun _ => keeps_pure _

theorem keeps_pointerField? (ctx : Context) (text : String) :
    Keeps (Touched ctx.line fields) (pointerField? ctx text) := by
  intro c
  unfold pointerField?
  cases Pointer.parse? text with
  | none => exact touched_of_suffix (List.suffix_refl _) rfl rfl
  | some p =>
    have hkeeps := p.keeps_encode ctx
    dsimp only
    cases h : p.encode ctx c.symbols with
    | ok field symbols => exact ⟨List.suffix_refl _, hkeeps.of_ok h, fun _ _ => rfl⟩
    | error f symbols => exact ⟨List.suffix_refl _, hkeeps.of_error h, fun _ _ => rfl⟩

theorem keeps_source (ctx : Context) (pointer : Bool) (hsource : Field.sourceFields ⊆ fields) :
    Keeps (Touched ctx.line fields) (source ctx pointer) := by
  unfold source
  split
  · refine keeps_bind (keeps_operand _) fun text => ?_
    refine keeps_bind (keeps_pointerField? ctx text.text) fun field => ?_
    refine keeps_bind ?_ fun _ => keeps_pure _
    cases field with
    | some field =>
      exact keeps_bind (keeps_setField (hsource (by decide)) 1) fun _ =>
        keeps_setField (hsource (by decide)) field
    | none =>
      exact keeps_bind (keeps_evaluate ctx _) fun operand => keeps_putSource hsource operand
  · exact keeps_src ctx hsource

theorem keeps_sourceAfter (ctx : Context) (pointer : Bool) (value : Quad) (text : OperandText)
    (hsource : Field.sourceFields ⊆ fields) :
    Keeps (Touched ctx.line fields) (sourceAfter ctx pointer value text) := by
  have hfield : Side.src.field ∈ fields := hsource (by decide)
  unfold sourceAfter
  split
  · exact keeps_bind (keeps_source ctx pointer hsource) fun _ => keeps_pure _
  · refine keeps_bind keeps_peek? fun word => ?_
    cases word with
    | none => exact keeps_register .src hfield value
    | some word =>
      dsimp only
      split
      · exact keeps_throw _
      · exact keeps_register .src hfield value

theorem keeps_dstSrc (ctx : Context) (pointer : Bool) (hdst : .destination ∈ fields)
    (hsource : Field.sourceFields ⊆ fields) :
    Keeps (Touched ctx.line fields) (dstSrc ctx pointer) := by
  refine keeps_bind (keeps_value ctx _) ?_
  rintro ⟨operand, text⟩
  refine keeps_bind (keeps_raiseIf _ _) fun _ => ?_
  refine keeps_bind (keeps_register .dst hdst _) fun _ => ?_
  exact keeps_sourceAfter ctx pointer _ _ hsource

/-! ## Other operands -/

theorem keeps_requireImmediate (ctx : Context) (part : Part) :
    Keeps (Touched ctx.line fields) (requireImmediate ctx part) := by
  refine keeps_bind (keeps_value ctx part) ?_
  rintro ⟨operand, text⟩
  exact keeps_bind (keeps_raiseIf _ _) fun _ => keeps_pure _

theorem keeps_laneIndex (ctx : Context) (lane : Lane) (hlane : lane.field ∈ fields) :
    Keeps (Touched ctx.line fields) (laneIndex ctx lane) := by
  refine keeps_bind (keeps_requireImmediate ctx _) fun operand => ?_
  exact keeps_bind (keeps_raiseIf _ _) fun _ => keeps_setField hlane _

theorem keeps_pointerRegister (hpointer : .pointer ∈ fields) :
    Keeps (Touched line fields) pointerRegister := by
  refine keeps_bind (keeps_operand _) fun text => ?_
  split
  · exact keeps_bind (keeps_setField hpointer _) fun _ => keeps_pure _
  · exact keeps_throw _

theorem keeps_address (ctx : Context) (hrelative : .relative ∈ fields)
    (haddress : .address ∈ fields) : Keeps (Touched ctx.line fields) (address ctx) := by
  refine keeps_bind (keeps_requireImmediate ctx _) fun operand => ?_
  refine keeps_bind (keeps_raiseIf _ _) fun _ => ?_
  dsimp only
  split
  · exact keeps_bind (keeps_setField hrelative 1) fun _ => keeps_setField haddress _
  · exact keeps_setField haddress _

theorem keeps_augment (ctx : Context) (haugment : .augment ∈ fields) :
    Keeps (Touched ctx.line fields) (augment ctx) :=
  keeps_bind (keeps_requireImmediate ctx _) fun _ => keeps_setField haugment _

theorem keeps_modczParameter (ctx : Context) :
    Keeps (Touched ctx.line fields) (modczParameter ctx) := by
  refine keeps_bind (keeps_operand _) fun text => ?_
  split
  · exact keeps_pure _
  · exact keeps_throw _
  · refine keeps_bind (keeps_evaluate ctx _) fun operand => ?_
    exact keeps_bind (keeps_raiseIf _ _) fun _ => keeps_pure _

theorem keeps_modifyFlags (ctx : Context) (target : FlagTarget) (hdst : .destination ∈ fields) :
    Keeps (Touched ctx.line fields) (modifyFlags ctx target) := by
  cases target with
  | both =>
    refine keeps_bind (keeps_modczParameter ctx) ?_
    rintro ⟨carry, text⟩
    refine keeps_bind (keeps_expectComma text) fun _ => ?_
    exact keeps_bind (keeps_modczParameter ctx) fun _ => keeps_setField hdst _
  | carry => exact keeps_bind (keeps_modczParameter ctx) fun _ => keeps_setField hdst _
  | zero => exact keeps_bind (keeps_modczParameter ctx) fun _ => keeps_setField hdst _

/-! ## Flag updates -/

theorem keeps_setFlags {carry zero : Bool} (hcarry : carry = true → .carry ∈ fields)
    (hzero : zero = true → .zero ∈ fields) : Keeps (Touched line fields) (setFlags carry zero) :=
  keeps_bind (keeps_setBit hcarry) fun _ => keeps_setBit hzero

/-- A rule gives leave only for its own flags. -/
theorem updates?_fields {rule : FlagRule} {flag : Flag} {carry zero : Bool}
    (h : rule.updates? flag = some (carry, zero)) :
    (carry = true → .carry ∈ rule.fields) ∧ (zero = true → .zero ∈ rule.fields) := by
  revert carry zero
  cases rule <;> cases flag <;> decide

theorem keeps_flags (rule : Option FlagRule) (hrule : rule.elim [] FlagRule.fields ⊆ fields) :
    Keeps (Touched line fields) (flags rule) := by
  cases rule with
  | none => exact keeps_finish
  | some rule =>
    refine keeps_bind keeps_peek? fun word => ?_
    cases word with
    | none => exact keeps_finish
    | some word =>
      dsimp only
      split
      · split
        · -- The updates that the rule gives leave for.
          rename_i carry zero hupdates
          obtain ⟨hcarry, hzero⟩ := updates?_fields hupdates
          refine keeps_bind (keeps_setFlags ?_ ?_) fun _ => ?_
          · exact fun h => hrule (hcarry h)
          · exact fun h => hrule (hzero h)
          · exact keeps_bind keeps_skip fun _ => keeps_finish
        · exact keeps_throw _
      · exact keeps_throw _

theorem keeps_testFlag (f : Field) (hf : f ∈ fields) (hcarry : .carry ∈ fields)
    (hzero : .zero ∈ fields) : Keeps (Touched line fields) (testFlag f) := by
  refine keeps_bind keeps_peek? fun word => ?_
  cases word with
  | none => exact keeps_throw _
  | some word =>
    dsimp only
    split
    · split
      · refine keeps_bind (keeps_setFlags (fun _ => hcarry) (fun _ => hzero)) fun _ => ?_
        refine keeps_bind keeps_skip fun _ => ?_
        exact keeps_modify fun c => touched_set hf c _
      · exact keeps_throw _
    · exact keeps_throw _

/-- A run starts from the words, and of the cursor it ends with the symbol table lasts. -/
theorem run_eq_ok_iff {α : Type} {m : Encoder α} {words : List Word} {opcode : Opcode}
    {t t' : SymbolTable} {a : α} {c : Cursor} : m.run words opcode t = .ok (a, c) t' ↔
      m { words, symbols := t, opcode } = .ok a c ∧ c.symbols = t' := by
  unfold run
  cases m { words, symbols := t, opcode } with
  | ok b c' =>
    constructor
    · intro h
      obtain ⟨hpair, rfl⟩ := EStateM.Result.ok.inj h
      obtain ⟨rfl, rfl⟩ := Prod.mk.inj hpair
      exact ⟨rfl, rfl⟩
    · rintro ⟨h, rfl⟩
      obtain ⟨rfl, rfl⟩ := EStateM.Result.ok.inj h
      rfl
  | error f c' => simp

/-- What an encoder keeps on its cursor, its run keeps on the symbol table. -/
theorem keeps_run {α : Type} {m : Encoder α} (fields : List Field)
    (h : Keeps (Touched line fields) m) (words : List Word) (opcode : Opcode) :
    Keeps (Recorded line) (m.run words opcode) := by
  intro t
  unfold run
  cases hm : m { words, symbols := t, opcode } with
  | ok a c => exact (h.of_ok hm).symbols
  | error f c => exact (h.of_error hm).symbols

end Encoder

/-! ## Instructions -/

open Cursor (Touched) in
open Encoder in
/-- The operands of a shape write the fields of the shape. -/
theorem Instruction.keeps_operands (ctx : Context) (shape : Shape) :
    Keeps (Touched ctx.line shape.fields) (operands ctx shape) := by
  have hmiddle : ∀ (f : Field) (fs gs : List Field), fs ⊆ f :: (fs ++ gs) := by
    intro f fs gs g hg
    exact List.mem_cons_of_mem _ (List.mem_append_left _ hg)
  have hrule : ∀ (f : Field) (fs gs : List Field), gs ⊆ f :: (fs ++ gs) := by
    intro f fs gs g hg
    exact List.mem_cons_of_mem _ (List.mem_append_right _ hg)
  -- Shape by shape, in the order of the operands.
  cases shape with
  | nop =>
    refine keeps_bind (keeps_modify fun c => ?_) fun _ => keeps_finish
    refine ⟨List.suffix_refl _, refl_of (Recorded ctx.line) c.symbols, ?_⟩
    intro i hi
    -- No bit of a long lies outside the fields of its layout.
    have hout : 32 ≤ i := by
      refine Nat.le_of_not_lt fun hlt => ?_
      obtain ⟨f, hf, hcovers⟩ := Field.exists_covers_of_lt hlt
      exact hi f hf hcovers
    rw [BitVec.getLsbD_of_ge _ _ hout, BitVec.getLsbD_of_ge _ _ hout]
  | bare rule => exact keeps_flags rule (List.Subset.refl _)
  | dst place rule =>
    refine keeps_bind (keeps_dst ctx place List.mem_cons_self (hmiddle _ _ _)) fun _ => ?_
    exact keeps_flags rule (hrule _ _ _)
  | testPin =>
    refine keeps_bind (keeps_dst ctx .immediate (by decide) (by decide)) fun _ => ?_
    exact keeps_bind (keeps_testFlag .source (by decide) (by decide) (by decide)) fun _ =>
      keeps_finish
  | src => exact keeps_bind (keeps_src ctx (List.Subset.refl _)) fun _ => keeps_finish
  | dstSrc pointer rule =>
    refine keeps_bind (keeps_dstSrc ctx pointer List.mem_cons_self (hmiddle _ _ _)) fun _ => ?_
    exact keeps_flags rule (hrule _ _ _)
  | testBit =>
    refine keeps_bind (keeps_dstSrc ctx false List.mem_cons_self (hmiddle _ _ _)) fun _ => ?_
    exact keeps_bind (keeps_testFlag .operation (by decide) (by decide) (by decide)) fun _ =>
      keeps_finish
  | both pointer rule =>
    have hzero : ImmediateMark.zero.fields ⊆ (Shape.both pointer rule).fields :=
      List.Subset.trans (by decide) (hmiddle _ (.zero :: Field.sourceFields) _)
    have hsource : Field.sourceFields ⊆ (Shape.both pointer rule).fields :=
      List.Subset.trans (by decide) (hmiddle _ (.zero :: Field.sourceFields) _)
    refine keeps_bind (keeps_dst ctx .zero List.mem_cons_self hzero) fun text => ?_
    refine keeps_bind (keeps_expectComma text) fun _ => ?_
    refine keeps_bind (keeps_source ctx pointer hsource) fun _ => ?_
    exact keeps_flags rule (hrule _ _ _)
  | lane l =>
    refine keeps_bind (keeps_dst ctx .none List.mem_cons_self (List.nil_subset _)) fun text => ?_
    refine keeps_bind (keeps_expectComma text) fun _ => ?_
    refine keeps_bind (keeps_src ctx (hmiddle _ _ _)) fun text => ?_
    refine keeps_bind (keeps_expectComma text) fun _ => ?_
    exact keeps_bind (keeps_laneIndex ctx l (hrule _ _ _ (List.mem_singleton.mpr rfl))) fun _ =>
      keeps_finish
  | alter =>
    refine keeps_bind (keeps_dst ctx .none List.mem_cons_self (List.nil_subset _)) fun text => ?_
    refine keeps_bind (keeps_expectComma text) fun _ => ?_
    exact keeps_bind (keeps_src ctx (List.subset_cons_self _ _)) fun _ => keeps_finish
  | jump =>
    refine keeps_bind (keeps_dst ctx .none List.mem_cons_self (List.nil_subset _)) fun _ => ?_
    exact keeps_flags (some .wcz) (by decide)
  | callD =>
    refine keeps_bind (keeps_dstSrc ctx false List.mem_cons_self (hmiddle _ _ _)) fun _ => ?_
    exact keeps_flags (some .wcz) (by decide)
  | getRnd =>
    refine keeps_bind (keeps_dst ctx .none List.mem_cons_self (List.nil_subset _)) fun _ => ?_
    exact keeps_flags (some .wcz) (by decide)
  | pointerAddress =>
    refine keeps_bind (keeps_pointerRegister (by decide)) fun text => ?_
    refine keeps_bind (keeps_expectComma text) fun _ => ?_
    exact keeps_bind (keeps_address ctx (by decide) (by decide)) fun _ => keeps_finish
  | address => exact keeps_bind (keeps_address ctx (by decide) (by decide)) fun _ => keeps_finish
  | augment => exact keeps_bind (keeps_augment ctx (by decide)) fun _ => keeps_finish
  | modify target =>
    refine keeps_bind (keeps_modifyFlags ctx target List.mem_cons_self) fun _ => ?_
    exact keeps_flags (some .wcz) (List.subset_cons_self _ _)

theorem Instruction.keeps_encode (ctx : Context) (mnemonic : String) (form : Form)
    (cond : Condition) (words : List Word) :
    Keeps (Recorded ctx.line) (encode ctx mnemonic form cond words) := by
  unfold encode
  dsimp only
  refine keeps_bind (Encoder.keeps_run _ (keeps_operands ctx _) _ _) ?_
  rintro ⟨_, cursor⟩
  exact keeps_pure _

/-! ## Directives -/

namespace Directive

open Cursor (Touched)

theorem keeps_items (ctx : Context) (size bound : Nat) :
    Keeps (Touched ctx.line []) (items ctx size bound) := by
  -- No item writes a field.
  induction bound with
  | zero => exact keeps_pure _
  | succ bound ih =>
    refine keeps_bind (Encoder.keeps_operand _) fun text => ?_
    have hitem : Keeps (Touched ctx.line []) (item ctx size text.text) := by
      unfold item
      split
      · exact keeps_pure _
      · exact keeps_bind (Encoder.keeps_evaluate ctx _) fun _ => keeps_pure _
    refine keeps_bind hitem fun bytes => ?_
    split
    · exact keeps_bind ih fun _ => keeps_pure _
    · exact keeps_pure _

theorem keeps_data (ctx : Context) (size : Nat) (words : List Word) :
    Keeps (Recorded ctx.line) (data ctx size words) := by
  refine keeps_bind (Encoder.keeps_run [] ?_ words {}) fun _ => keeps_pure _
  refine keeps_bind (keeps_items ctx size _) fun bytes => ?_
  exact keeps_bind Encoder.keeps_finish fun _ => keeps_pure _

theorem keeps_argument? (ctx : Context) (words : List Word) :
    Keeps (Recorded ctx.line) (argument? ctx words) := by
  refine keeps_bind (Encoder.keeps_run [] ?_ words {}) fun _ => keeps_pure _
  refine keeps_bind Encoder.keeps_operand? fun text => ?_
  cases text with
  | none => exact keeps_bind Encoder.keeps_finish fun _ => keeps_pure _
  | some text =>
    refine keeps_bind (Encoder.keeps_evaluate ctx _) fun operand => ?_
    exact keeps_bind Encoder.keeps_finish fun _ => keeps_pure _

theorem keeps_assigned (ctx : Context) (words : List Word) :
    Keeps (Recorded ctx.line) (assigned ctx words) := by
  refine keeps_bind (Encoder.keeps_run [] ?_ words {}) fun _ => keeps_pure _
  refine keeps_bind (Encoder.keeps_value ctx _) ?_
  rintro ⟨operand, text⟩
  exact keeps_bind Encoder.keeps_finish fun _ => keeps_pure _

end Directive

end PropellerAsm
