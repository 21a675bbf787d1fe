import Mathlib.Data.List.Forall2
import PropellerAsm.Assembly.Statement
import PropellerAsm.Proofs.Lockstep
import PropellerAsm.Proofs.Symbol.Table

/-!
# What two readings of a statement may differ in

A statement is read twice.  A `Variation` says which words, texts and symbol tables stand for each
other and what both readings show of a text that they quote; it is sound if the few places that look
at a text or at a table tell the same.  The first example is a statement on another line: its words
stand at other columns, and its tables record other lines but agree on the values of names.
-/
namespace PropellerAsm

/-! ## Quoted texts -/

/-- The fault with the texts that it quotes from the source seen through `view`. -/
def Fault.mapText (view : String → String) : Fault → Fault
  | redefinition name line value => .redefinition (view name) line value
  | extraParameters words => .extraParameters (view words)
  | expectedComma found => .expectedComma (view found)
  | expectedImmediate found => .expectedImmediate (view found)
  | unexpectedImmediate found => .unexpectedImmediate (view found)
  | invalidPointer found => .invalidPointer (view found)
  | multipleConditions found => .multipleConditions (view found)
  | conditionBeforeDirective condition => .conditionBeforeDirective (view condition)
  | reservedWord found => .reservedWord (view found)
  | unexpectedFlag found allowed => .unexpectedFlag (view found) allowed
  | unexpectedTestFlag found => .unexpectedTestFlag (view found)
  | notAnInstruction found => .notAnInstruction (view found)
  | constantAsInstruction name => .constantAsInstruction (view name)
  | strayModcz found => .strayModcz (view found)
  | invalidModcz found => .invalidModcz (view found)
  | invalidExpression rest => .invalidExpression (view rest)
  | f => f

theorem Fault.mapText_id (f : Fault) : f.mapText id = f := by
  cases f with
  | _ => rfl

/-- The effect with the mnemonic that it tells seen through `view`. -/
def Effect.mapText (view : String → String) : Effect → Effect
  | code mnemonic e => .code (view mnemonic) e
  | effect => effect

theorem Effect.mapText_id (effect : Effect) : effect.mapText id = effect := by
  cases effect with
  | _ => rfl

/-! ## Words in a row -/

namespace Word

variable {R : Word → Word → Prop}

theorem head?_same {words words' : List Word} (h : List.Forall₂ R words words') :
    Option.Rel R words.head? words'.head? := by
  cases h with
  | nil => exact .none
  | cons hword _ => exact .some hword

theorem any_same {x y : Option Word} (h : Option.Rel R x y) {p : Word → Bool}
    (hp : ∀ v w, R v w → p v = p w) : x.any p = y.any p := by
  cases h with
  | none => rfl
  | some hword => exact hp _ _ hword

theorem tail_same {words words' : List Word} (h : List.Forall₂ R words words') :
    List.Forall₂ R words.tail words'.tail := by
  cases h with
  | nil => exact .nil
  | cons _ hrest => exact hrest

end Word

/-! ## Variations -/

/-- The context on another line. -/
def Context.onLine (ctx : Context) (line : Nat) : Context :=
  { ctx with line }

/-- What two readings of a statement may differ in. -/
structure Variation where
  /-- Words that stand for each other. -/
  word : Word → Word → Prop
  /-- Texts of words and of operands that stand for each other. -/
  text : String → String → Prop
  /-- What both readings show of a text that they quote. -/
  view : String → String
  /-- The symbol tables while both readings go on. -/
  table : SymbolTable → SymbolTable → Prop
  /-- The symbol tables behind a fault. -/
  stopped : SymbolTable → SymbolTable → Prop
  stop {t t' : SymbolTable} (h : table t t') : stopped t t'

namespace Variation

/-- The evaluations of two readings. -/
def tables (V : Variation) : Comparison SymbolTable SymbolTable where
  state := V.table
  stopped := V.stopped
  fault f f' := f.mapText V.view = f'.mapText V.view
  stop := V.stop

/-- What is read on `line` and on `line'` may differ as `V` says, and nothing comes of it. -/
structure Sound (V : Variation) (line line' : Nat) : Prop where
  token {v w : Word} (h : V.word v w) : v.token = w.token
  comma {v w : Word} (h : V.word v w) : v.comma = w.comma
  text {v w : Word} (h : V.word v w) : V.text v.text w.text
  plain {v w : Word} (h : V.word v w) (hplain : v.token = .plain) : v.text = w.text
  same (x : String) : V.text x x
  view {x y : String} (h : V.text x y) : V.view x = V.view y
  view_append (x y : String) : V.view (x ++ y) = V.view x ++ V.view y
  upper {x y : String} (h : V.text x y) : Text.upper x = Text.upper y
  sigil {x y : String} (h : V.text x y) :
    (x.toList.head? == some '#') = (y.toList.head? == some '#')
  joins {x y : String} (h : V.text x y) (word : Word) :
    OperandText.joins x word = OperandText.joins y word
  append {x y : String} (h : V.text x y) {word : Word} (hjoins : OperandText.joins x word = true) :
    V.text (x ++ word.text) (y ++ word.text)
  pointer {x y : String} (h : V.text x y) : Pointer.parse? x = Pointer.parse? y
  string {x y : String} (h : V.text x y) :
    Directive.stringItem? x = Directive.stringItem? y
  value {t t' : SymbolTable} (h : V.table t t') (name : String) :
    (t.lookup name).value = (t'.lookup name).value
  evaluate {x y : String} (h : V.text x y) {ctx : Context} (hline : ctx.line = line) :
    Lockstep V.tables Eq (Operand.evaluate ctx x) (Operand.evaluate (ctx.onLine line') y)

section

variable {V : Variation} {line line' : Nat} (hV : V.Sound line line')

include hV

theorem Sound.find? {x y : String} (h : V.text x y) : Keyword.find? x = Keyword.find? y := by
  unfold Keyword.find?
  rw [hV.upper h]

theorem Sound.secondForm? {x y : String} (h : V.text x y) :
    Instruction.secondForm? x = Instruction.secondForm? y := by
  unfold Instruction.secondForm?
  rw [hV.upper h]

/-- Quotations of several words show the same. -/
theorem Sound.view_intercalate {words words' : List Word} (h : List.Forall₂ V.word words words')
    (separator : String) :
    V.view (separator.intercalate (words.map (·.text))) =
      V.view (separator.intercalate (words'.map (·.text))) := by
  induction h with
  | nil => rfl
  | @cons v w rest rest' hword hrest ih =>
    cases hrest with
    | nil => exact hV.view (hV.text hword)
    | cons hnext hmore =>
      rw [List.map_cons, List.map_cons] at ih ⊢
      rw [List.map_cons, List.map_cons, String.intercalate_cons_cons,
        String.intercalate_cons_cons, hV.view_append, hV.view_append, hV.view_append,
        hV.view_append, ih, hV.view (hV.text hword)]

end

end Variation

/-! ## Words at other columns -/

/-- The words are the same but for the columns where they stand. -/
structure Word.SameSpelling (v w : Word) : Prop where
  text : v.text = w.text
  token : v.token = w.token
  comma : v.comma = w.comma

instance : Std.Refl Word.SameSpelling where
  refl _ := ⟨rfl, rfl, rfl⟩

/-- Tables that `Q` relates agree on all values, and stay related when a name is used on `line` and
on `line'`. -/
structure SymbolTable.Coupled (Q : SymbolTable → SymbolTable → Prop) (line line' : Nat) :
    Prop where
  value {t t' : SymbolTable} (h : Q t t') (name : String) :
    (t.lookup name).value = (t'.lookup name).value
  use {t t' : SymbolTable} (h : Q t t') (name : String) :
    Q (t.addReference line name) (t'.addReference line' name)

theorem SymbolTable.coupled_eq (line : Nat) : SymbolTable.Coupled Eq line line where
  value := by
    rintro t _ rfl name
    rfl
  use := by
    rintro t _ rfl name
    rfl

section

variable {C : Comparison SymbolTable SymbolTable} {ctx : Context} {line' : Nat}
  (hC : SymbolTable.Coupled C.state ctx.line line') (hfault : ∀ f, C.fault f f)

include hC hfault

theorem Context.lockstep_resolve (name : String) :
    Lockstep C Eq (ctx.resolve name) ((ctx.onLine line').resolve name) := by
  unfold resolve
  split
  · exact lockstep_pure rfl
  · exact lockstep_pure rfl
  · exact lockstep_throw (hfault _)
  · refine (lockstep_modify fun t t' h => hC.use h _).bind_same fun _ => ?_
    refine lockstep_get.bind fun t t' h => lockstep_pure ?_
    exact congrArg Value.toQuad (hC.value h _)

theorem Expr.lockstep_eval (e : Expr) :
    Lockstep C Eq (e.eval ctx) (e.eval (ctx.onLine line')) := by
  induction e with
  | literal value => exact lockstep_pure rfl
  | here => exact lockstep_pure rfl
  | name text => exact Context.lockstep_resolve hC hfault text
  | unary op e ih => exact ih.bind_same fun x => lockstep_pure rfl
  | binary op l r ihl ihr =>
    refine ihl.bind_same fun x => ihr.bind_same fun y => ?_
    cases op.apply x y with
    | ok z => exact lockstep_pure rfl
    | error f => exact lockstep_throw (hfault f)
  | fault f => exact lockstep_throw (hfault f)
  | followed e f ih => exact ih.bind_same fun x => lockstep_throw (hfault f)

theorem Operand.lockstep_evaluate (text : String) :
    Lockstep C Eq (Operand.evaluate ctx text) (Operand.evaluate (ctx.onLine line') text) :=
  (Expr.lockstep_eval hC hfault (parse text).2).bind_same fun _ => lockstep_pure rfl

end

namespace Variation

/-- The words stand at other columns, and `Q` relates the tables. -/
def columns (Q : SymbolTable → SymbolTable → Prop) : Variation where
  word := Word.SameSpelling
  text := Eq
  view := id
  table := Q
  stopped := Q
  stop := id

theorem sound_columns {Q : SymbolTable → SymbolTable → Prop} {line line' : Nat}
    (hQ : SymbolTable.Coupled Q line line') : (columns Q).Sound line line' where
  token h := h.token
  comma h := h.comma
  text h := h.text
  plain h _ := h.text
  same _ := rfl
  view h := h
  view_append _ _ := rfl
  upper h := congrArg Text.upper h
  sigil h := congrArg (fun x => x.toList.head? == some '#') h
  joins h word := congrArg (OperandText.joins · word) h
  append h _ _ := congrArg (· ++ _) h
  pointer h := congrArg Pointer.parse? h
  string h := congrArg Directive.stringItem? h
  value h name := hQ.value h name
  evaluate := by
    rintro x _ rfl ctx rfl
    exact Operand.lockstep_evaluate hQ (fun _ => rfl) x

end Variation

end PropellerAsm
