import PropellerAsm.Proofs.Assembly.Step
import PropellerAsm.Proofs.Encoding.Touched

/-!
# Symbols after reading a line

Reading the words of a line does two things to the symbol table, in this order: it binds the label
of the line, if there is one and it is free, and it records the uses of names on the line.  This
holds for a line with a fault as well, wherever the fault arises.
-/
namespace PropellerAsm

open SymbolTable (Recorded Extended)

/-! ## Statements -/

namespace Statement

/-- A directive that checks its argument and then returns an effect. -/
theorem keeps_checked (ctx : Context) (words : List Word) {c : Option Quad → Prop}
    [∀ x, Decidable (c x)] (f : Option Quad → Fault) (e : Option Quad → Effect) :
    Keeps (Recorded ctx.line) (do
      let x ← Directive.argument? ctx words
      Fault.raiseIf (c x) (f x)
      return e x) :=
  keeps_bind (Directive.keeps_argument? ctx words) fun _ =>
    keeps_bind (keeps_raiseIf _ _) fun _ => keeps_pure _

theorem keeps_fill (ctx : Context) (words : List Word) :
    Keeps (Recorded ctx.line) (fill ctx words) := by
  refine keeps_bind (Directive.keeps_argument? ctx words) fun target => ?_
  cases target with
  | none => exact keeps_throw _
  | some target =>
    refine keeps_bind (keeps_raiseIf _ _) fun _ => ?_
    exact keeps_bind (keeps_raiseIf _ _) fun _ => keeps_pure _

theorem keeps_align (ctx : Context) (size : Nat) (words : List Word) :
    Keeps (Recorded ctx.line) (align ctx size words) := by
  cases words with
  | cons word words => exact keeps_throw _
  | nil =>
    rw [align]
    split
    · exact keeps_pure _
    · exact keeps_pure _

theorem keeps_directive (ctx : Context) (words : List Word) (d : Directive) :
    Keeps (Recorded ctx.line) (directive ctx words d) := by
  cases d with
  | byte => exact keeps_bind (Directive.keeps_data ctx 1 words) fun _ => keeps_pure _
  | word => exact keeps_bind (Directive.keeps_data ctx 2 words) fun _ => keeps_pure _
  | long => exact keeps_bind (Directive.keeps_data ctx 4 words) fun _ => keeps_pure _
  | res => exact keeps_checked ctx words _ _
  | fit => exact keeps_checked ctx words _ _
  | org => exact keeps_checked ctx words _ _
  | orgh => exact keeps_checked ctx words _ _
  | orgf => exact keeps_fill ctx words
  | alignw => exact keeps_align ctx 2 words
  | alignl => exact keeps_align ctx 4 words

theorem keeps_assignment (ctx : Context) (labelled : Bool) (words : List Word) :
    Keeps (Recorded ctx.line) (assignment ctx labelled words) :=
  keeps_bind (keeps_raiseIf _ _) fun _ =>
    keeps_bind (Directive.keeps_assigned ctx words) fun _ => keeps_pure _

theorem Guard.keeps_refuse (g : Guard) (line : Nat) : Keeps (Recorded line) g.refuse := by
  unfold refuse
  split
  · exact keeps_throw _
  · exact keeps_pure _

/-- Whatever a statement is, reading it records uses on its line and nothing else. -/
theorem keeps_effect (ctx : Context) (labelled : Bool) (words : List Word) :
    Keeps (Recorded ctx.line) (effect ctx labelled words) := by
  -- A condition alone, nothing at all, or a keyword that decides what the statement is.
  unfold effect
  split
  · exact keeps_throw _
  · exact keeps_pure _
  · split
    · exact keeps_bind (Instruction.keeps_encode ctx _ _ _ _) fun _ => keeps_pure _
    · exact keeps_bind (Guard.keeps_refuse _ _) fun _ => keeps_directive ctx _ _
    · exact keeps_bind (Guard.keeps_refuse _ _) fun _ => keeps_assignment ctx labelled _
    · exact keeps_throw _
    · refine keeps_bind (keeps_bind keeps_get fun _ => keeps_pure _) fun _ => ?_
      exact keeps_bind (keeps_raiseIf _ _) fun _ => keeps_throw _
    · exact keeps_throw _

end Statement

/-! ## Labels -/

namespace Assembly

/-- A label is bound, or the symbols stay as they are. -/
theorem bindLabel_cases (pc : Long) (text : String) (a : Assembly) :
    (∃ f b, bindLabel pc text a = .error f b ∧ b.symbols = a.symbols) ∨
    (∃ b, bindLabel pc text a = .ok (Symbol.qualify a.scope text) b ∧
      b.lineNumber = a.lineNumber ∧
      a.symbols.define? (Symbol.qualify a.scope text) (.addr pc) a.lineNumber =
        some b.symbols) := by
  unfold bindLabel
  split
  swap
  · exact .inl ⟨_, a, rfl, rfl⟩
  dsimp only
  -- A global label changes the scope, which the definition does not depend on.
  have hscope : ∀ b : Assembly,
      b = (if Symbol.isLocal text then a else { a with scope := Symbol.qualify a.scope text }) →
      b.symbols = a.symbols ∧ b.lineNumber = a.lineNumber := by
    rintro b rfl
    split
    · exact ⟨rfl, rfl⟩
    · exact ⟨rfl, rfl⟩
  generalize hb : (if Symbol.isLocal text then a
    else { a with scope := Symbol.qualify a.scope text }) = b
  obtain ⟨hsymbols, hnumber⟩ := hscope b hb.symm
  rw [hsymbols, hnumber]
  cases hdefine : a.symbols.define? (Symbol.qualify a.scope text) (.addr pc) a.lineNumber with
  | some symbols => exact .inr ⟨_, rfl, rfl, rfl⟩
  | none => exact .inl ⟨_, b, rfl, hsymbols⟩

/-- The full name of the label that words start with. -/
def OwnLabel (scope : String) (words : List Word) (name : String) : Prop :=
  ∃ word, words.head? = some word ∧ word.token = .plain ∧ name = Symbol.qualify scope word.text

theorem recorded_evaluate {α : Type} {m : Evaluator α} {line : Nat}
    (h : Keeps (Recorded line) m) (a : Assembly) :
    Recorded line a.symbols (endState (evaluate m a)).symbols := by
  unfold evaluate
  cases hm : m a.symbols with
  | ok x symbols => exact h.of_ok hm
  | error f symbols => exact h.of_error hm

/-- The part of a line behind its label. -/
theorem recorded_rest (a : Assembly) (pc : Long) (label : Option String) (words : List Word) :
    Recorded a.lineNumber a.symbols (endState ((do
      let a ← get
      let ctx : Context := { scope := a.scope, line := a.lineNumber, pc }
      let effect ← evaluate (Statement.effect ctx label.isSome words)
      return (label, effect) : Assembler (Option String × Effect)) a)).symbols := by
  have hget : (get : Assembler Assembly) a = .ok a a := rfl
  rw [bind_of_ok hget]
  have h := recorded_evaluate (Statement.keeps_effect
    { scope := a.scope, line := a.lineNumber, pc } label.isSome words) a
  cases hm : evaluate (Statement.effect
      { scope := a.scope, line := a.lineNumber, pc } label.isSome words) a with
  | ok effect b =>
    rw [hm] at h
    rw [bind_of_ok hm]
    exact h
  | error f b =>
    rw [hm] at h
    rw [bind_of_error hm]
    exact h

/-- What reading the words of a line does to the symbols, fault or no fault. -/
theorem extended_read (a : Assembly) (pc : Long) (words : List Word) :
    ∃ label uses, (∀ name, label = some name → OwnLabel a.scope words name) ∧
      Extended a.lineNumber (.addr pc) label uses a.symbols
        (endState (read pc words a)).symbols := by
  have hunlabelled : ∀ {t : SymbolTable}, Recorded a.lineNumber a.symbols t →
      ∃ label uses, (∀ name, label = some name → OwnLabel a.scope words name) ∧
        Extended a.lineNumber (.addr pc) label uses a.symbols t := by
    rintro t ⟨uses, rfl⟩
    refine ⟨none, uses, ?_, a.symbols.extended_addReferences a.lineNumber _ uses⟩
    intro name h
    cases h
  -- A first word that is plain is a label: bound, or refused before anything else is read.
  unfold read
  cases words with
  | nil =>
    have hlabel : takeLabel pc [] a = .ok (none, []) a := rfl
    rw [bind_of_ok hlabel]
    exact hunlabelled (recorded_rest a pc none [])
  | cons word rest =>
    by_cases hplain : word.token = .plain
    · obtain ⟨f, b, hbind, hsymbols⟩ | ⟨b, hbind, hnumber, hdefine⟩ :=
        bindLabel_cases pc word.text a
      · have hlabel : takeLabel pc (word :: rest) a = .error f b := by
          rw [takeLabel, if_pos hplain, bind_of_error hbind]
        rw [bind_of_error hlabel]
        exact hunlabelled ⟨[], hsymbols⟩
      · have hlabel : takeLabel pc (word :: rest) a =
            .ok (some (Symbol.qualify a.scope word.text), rest) b := by
          rw [takeLabel, if_pos hplain, bind_of_ok hbind]
          rfl
        rw [bind_of_ok hlabel]
        obtain ⟨uses, huses⟩ := recorded_rest b pc (some (Symbol.qualify a.scope word.text)) rest
        refine ⟨some (Symbol.qualify a.scope word.text), uses, ?_, ?_⟩
        · intro name h
          exact ⟨word, rfl, hplain, (Option.some.inj h).symm⟩
        · rw [hnumber] at huses
          rw [huses]
          exact SymbolTable.extended_define? hdefine uses
    · have hlabel : takeLabel pc (word :: rest) a = .ok (none, word :: rest) a := by
        rw [takeLabel, if_neg hplain]
        rfl
      rw [bind_of_ok hlabel]
      exact hunlabelled (recorded_rest a pc none (word :: rest))

end Assembly

end PropellerAsm
