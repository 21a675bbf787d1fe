import PropellerAsm.Proofs.Assembly.FaultyLine
import PropellerAsm.Proofs.Assembly.Statement
import PropellerAsm.Proofs.Encoding.Uses

/-!
# What a line mentions

A line binds the label that its words start with, unless the name is taken, and uses the names that
stand in its operands, up to the first fault.  Whatever the line is, this is all that it does to the
symbols: the label gets a value, which an origin or an assignment may replace at once, and the uses
are added one by one.  A label that is taken is the only reason for a fault about a redefinition,
and the fault tells what the table says.
-/
namespace PropellerAsm

open SymbolTable (Extended)

/-! ## Statements -/

namespace Statement

/-- The names that the operands of a statement use, in the order of the words behind the label. -/
def names (scope : String) (words : List Word) : List String :=
  match takeCondition words with
  | .error _ => []
  | .ok (_, []) => []
  | .ok (_, first :: rest) =>
    match first.token with
    | .keyword (.instruction form) =>
      Reading.listed scope (Instruction.selectForm first.text form rest).shape.readings rest
    | .keyword (.directive d) => Reading.listed scope (d.readings rest.length) rest
    | .keyword .assign => Reading.listed scope [.expression] rest
    | _ => []

theorem records_align (ctx : Context) (size : Nat) (words : List Word) :
    Records id ctx.line (fun _ => []) (align ctx size words) := by
  cases words with
  | cons word words => exact records_throw rfl
  | nil =>
    rw [align]
    split
    · exact records_pure _
    · exact records_pure _

theorem records_fill (ctx : Context) (words : List Word) :
    Records id ctx.line (fun _ => Reading.listed ctx.scope [.expression] words)
      (fill ctx words) := by
  refine (Directive.records_argument? ctx words).bind_quiet fun target => ?_
  cases target with
  | none => exact records_throw rfl
  | some target =>
    exact (records_raiseIf rfl).bind_quiet fun _ =>
      (records_raiseIf rfl).bind_quiet fun _ => records_pure _

theorem records_directive (ctx : Context) (words : List Word) (d : Directive) :
    Records id ctx.line (fun _ => Reading.listed ctx.scope (d.readings words.length) words)
      (directive ctx words d) := by
  cases d with
  | byte => exact (Directive.records_data ctx 1 words).bind_quiet fun _ => records_pure _
  | word => exact (Directive.records_data ctx 2 words).bind_quiet fun _ => records_pure _
  | long => exact (Directive.records_data ctx 4 words).bind_quiet fun _ => records_pure _
  | res =>
    exact (Directive.records_argument? ctx words).bind_quiet fun _ =>
      (records_raiseIf rfl).bind_quiet fun _ => records_pure _
  | fit =>
    exact (Directive.records_argument? ctx words).bind_quiet fun _ =>
      (records_raiseIf rfl).bind_quiet fun _ => records_pure _
  | org =>
    exact (Directive.records_argument? ctx words).bind_quiet fun _ =>
      (records_raiseIf rfl).bind_quiet fun _ => records_pure _
  | orgh =>
    exact (Directive.records_argument? ctx words).bind_quiet fun _ =>
      (records_raiseIf rfl).bind_quiet fun _ => records_pure _
  | orgf => exact records_fill ctx words
  | alignw => exact records_align ctx 2 words
  | alignl => exact records_align ctx 4 words

/-- A check before a statement records nothing. -/
theorem records_after {α : Type} {line : Nat} {uses : List String} {m : Evaluator Unit}
    (hm : Records id line (fun _ => []) m) {f : Unit → Evaluator α}
    (hf : Records id line (fun _ => uses) (f ())) : Records id line (fun _ => uses) (m >>= f) :=
  hm.bind (fun _ => hf) (fun _ => rfl) fun _ => List.nil_prefix

theorem records_refuse (line : Nat) (guard : Guard) :
    Records id line (fun _ => []) guard.refuse := by
  unfold Guard.refuse
  split
  · exact records_throw rfl
  · exact records_pure _

theorem takeCondition_error {words : List Word} {f : Fault} (h : takeCondition words = .error f) :
    f.isRedefinition = false := by
  unfold takeCondition at h
  split at h
  · cases h
  · split at h
    · split at h
      · cases h
      · split at h
        · obtain rfl := Except.error.inj h
          rfl
        · cases h
    · cases h

/-- Reading a statement records the names that its operands use. -/
theorem records_effect (ctx : Context) (labelled : Bool) (words : List Word) :
    Records id ctx.line (fun _ => names ctx.scope words) (effect ctx labelled words) := by
  unfold effect names
  cases htake : takeCondition words with
  | error f => exact records_throw (takeCondition_error htake)
  | ok taken =>
    obtain ⟨guard, _ | ⟨first, rest⟩⟩ := taken
    · exact records_pure _
    · dsimp only
      -- The first word behind the condition says how the others are read.
      cases first.token with
      | plain =>
        refine (records_get.bind_quiet fun _ => records_pure _).bind_quiet fun _ => ?_
        exact (records_raiseIf rfl).bind_quiet fun _ => records_throw rfl
      | comment => exact records_throw rfl
      | keyword k =>
        cases k with
        | instruction form =>
          exact (Instruction.records_encode ctx _ form _ rest).bind_quiet fun _ => records_pure _
        | directive d =>
          exact records_after (records_refuse ctx.line guard) (records_directive ctx rest d)
        | assign =>
          refine records_after (records_refuse ctx.line guard) (records_after ?_ ?_)
          · exact records_raiseIf rfl
          · exact (Directive.records_assigned ctx rest).bind_quiet fun _ => records_pure _
        | condition code => exact records_throw rfl
        | flag f => exact records_throw rfl
        | register r => exact records_throw rfl
        | modcz code => exact records_throw rfl

/-- A label is assigned a number, which is a value. -/
theorem isDefined_of_assign {ctx : Context} {labelled : Bool} {words : List Word}
    {t t' : SymbolTable} {value : Value}
    (h : effect ctx labelled words t = .ok (.assign value) t') : value.isDefined = true := by
  obtain h | ⟨_, _, h⟩ | ⟨_, h⟩ | ⟨_, h, -⟩ | ⟨_, _, _, h, -⟩ | ⟨n, h⟩ := effect_eq_ok h
  · cases h
  · cases h
  · cases h
  · cases h
  · cases h
  · obtain rfl := Effect.assign.inj h
    unfold numberValue
    split
    · rfl
    · rfl

end Statement

/-! ## Symbols after an effect -/

/-- A label may get another value on its line. -/
theorem SymbolTable.Extended.setValue? {line : Nat} {value value' : Value} {name : String}
    {uses : List String} {t t₁ t₂ : SymbolTable} (h : Extended line value (some name) uses t t₁)
    (hset : t₁.setValue? name value' = some t₂) :
    Extended line value' (some name) uses t t₂ := by
  obtain ⟨s, hs, rfl⟩ := Option.map_eq_some_iff.mp hset
  refine ⟨h.free, ?_, h.others⟩
  intro other
  rw [get?_put]
  by_cases hname : name = other
  · subst hname
    have hbound := h.symbols name
    rw [if_pos rfl, hs] at hbound
    rw [if_pos rfl, if_pos rfl, Option.some.inj hbound]
    rfl
  · have hother := h.symbols other
    have hlabel : ¬ some name = some other := by simpa using hname
    rw [if_neg hlabel] at hother
    rw [if_neg hname, if_neg hlabel]
    exact hother

namespace Assembly

theorem extended_rebind {a : Assembly} {line : Nat} {value : Value} {label : Option String}
    {uses : List String} {t : SymbolTable} (h : Extended line value label uses t a.symbols)
    (value' : Value) :
    ∃ value'', (value'' = value ∨ value'' = value') ∧
      Extended line value'' label uses t (a.rebind label value').symbols := by
  cases label with
  | none => exact ⟨value, .inl rfl, h⟩
  | some name =>
    show ∃ value'', _ ∧
      Extended line value'' _ uses t ((a.symbols.setValue? name value').getD a.symbols)
    cases hset : a.symbols.setValue? name value' with
    | none => exact ⟨value, .inl rfl, h⟩
    | some t₂ => exact ⟨value', .inr rfl, h.setValue? hset⟩

/-- An effect leaves the label of the line with a value. -/
theorem extended_commit {a : Assembly} {line : Nat} {pc : Long} {label : Option String}
    {uses : List String} {t : SymbolTable}
    (h : Extended line (.addr pc) label uses t a.symbols) {effect : Effect}
    (heffect : ∀ value, effect = .assign value → value.isDefined = true) :
    ∃ value, value.isDefined = true ∧
      Extended line value label uses t (a.commit pc label effect).symbols := by
  -- Most effects do not touch the symbols.
  have hsame : ∀ {b : Assembly}, b.symbols = a.symbols →
      ∃ value, value.isDefined = true ∧ Extended line value label uses t b.symbols := by
    intro b hsymbols
    rw [hsymbols]
    exact ⟨.addr pc, rfl, h⟩
  have hrebind : ∀ {b : Assembly} {value' : Value}, b.symbols = a.symbols →
      value'.isDefined = true → ∃ value, value.isDefined = true ∧
        Extended line value label uses t (b.rebind label value').symbols := by
    intro b value' hsymbols hvalue
    rw [← hsymbols] at h
    obtain ⟨value, rfl | rfl, hextended⟩ := extended_rebind h value'
    · exact ⟨_, rfl, hextended⟩
    · exact ⟨_, hvalue, hextended⟩
  cases effect with
  | nothing => exact hsame rfl
  | code mnemonic e => exact hsame (a.onlyStored_code pc label mnemonic e).symbols
  | data bytes => exact hsame (a.onlyStored_data pc label bytes).symbols
  | reserve next => exact hsame rfl
  | origin org => exact hrebind rfl rfl
  | assign value => exact hrebind rfl (heffect value rfl)

/-! ## The scope of a line -/

theorem commit_scope (a : Assembly) (pc : Long) (label : Option String) (effect : Effect) :
    (a.commit pc label effect).scope = a.scope := by
  have hrebind : ∀ (b : Assembly) (value : Value), (b.rebind label value).scope = b.scope := by
    intro b value
    cases label with
    | none => rfl
    | some name => rfl
  cases effect with
  | nothing => rfl
  | code mnemonic e => exact (a.onlyStored_code pc label mnemonic e).scope
  | data bytes => exact (a.onlyStored_data pc label bytes).scope
  | reserve next => rfl
  | origin org => exact hrebind _ _
  | assign value => exact hrebind a value

/-- The names that the operands of the next line use; a global label in front of them is already
their scope. -/
def namesOn (a : Assembly) (source : String) : List String :=
  Statement.names (a.line source).scope (unlabelled (Word.code (a.nextWords source)))

/-! ## Labels -/

/-- A label that is refused because of its name has a value, and the fault tells it. -/
theorem bindLabel_redefinition {pc : Long} {text : String} {a b : Assembly} {name : String}
    {line : Nat} {value : Quad}
    (h : bindLabel pc text a = .error (.redefinition name line value) b) :
    ∃ s, a.symbols.get? name = some s ∧ s.isDefined = true ∧ line = s.definition?.getD 0 ∧
      value = s.value.toQuad := by
  unfold bindLabel at h
  split at h
  swap
  · cases h
  dsimp only at h
  -- A global label changes the scope, which the table does not depend on.
  have hsymbols : (if Symbol.isLocal text then a
      else { a with scope := Symbol.qualify a.scope text }).symbols = a.symbols := by
    split
    · rfl
    · rfl
  rw [hsymbols] at h
  split at h
  · cases h
  · rename_i hdefine
    obtain ⟨hfault, -⟩ := EStateM.Result.error.inj h
    obtain ⟨rfl, rfl, rfl⟩ := Fault.redefinition.inj hfault
    unfold SymbolTable.define? at hdefine
    dsimp only at hdefine
    split at hdefine
    swap
    · cases hdefine
    rename_i hdefined
    cases hget : a.symbols.get? (Symbol.qualify a.scope text) with
    | none =>
      rw [hget] at hdefined
      cases hdefined
    | some s =>
      rw [hget] at hdefined
      refine ⟨s, rfl, hdefined, ?_, ?_⟩
      · rw [SymbolTable.lookup, hget]
        rfl
      · rw [SymbolTable.lookup, hget]
        rfl

/-- A label that is taken is the one that the words start with; uses that follow come on top. -/
theorem takeLabel_eq_ok {pc : Long} {words rest : List Word} {a b : Assembly}
    {label : Option String} (h : takeLabel pc words a = .ok (label, rest) b) :
    b.lineNumber = a.lineNumber ∧ (∀ name, label = some name ↔ OwnLabel a.scope words name) ∧
      ∀ uses, Extended a.lineNumber (.addr pc) label uses a.symbols
        (b.symbols.addReferences a.lineNumber uses) := by
  obtain ⟨word, more, rfl, hplain, ⟨name, b', hbind, htake⟩ | ⟨f, b', -, htake⟩⟩ |
    ⟨hplain, htake⟩ := takeLabel_cases pc words a
  · -- The first word is plain, and it has been bound.
    rw [htake] at h
    obtain ⟨hresult, rfl⟩ := EStateM.Result.ok.inj h
    obtain ⟨rfl, -⟩ := Prod.mk.inj hresult
    obtain ⟨f, b, herror, -⟩ | ⟨b, hok, hnumber, hdefine⟩ := bindLabel_cases pc word.text a
    · rw [hbind] at herror
      cases herror
    · rw [hbind] at hok
      obtain ⟨rfl, rfl⟩ := EStateM.Result.ok.inj hok
      refine ⟨hnumber, ?_, fun uses => SymbolTable.extended_define? hdefine uses⟩
      intro name
      constructor
      · intro hname
        exact ⟨word, rfl, hplain, (Option.some.inj hname).symm⟩
      · rintro ⟨first, hfirst, -, rfl⟩
        obtain rfl := Option.some.inj hfirst
        rfl
  · rw [htake] at h
    cases h
  · -- Without a plain word in front there is no label.
    rw [htake] at h
    obtain ⟨hresult, rfl⟩ := EStateM.Result.ok.inj h
    obtain ⟨rfl, -⟩ := Prod.mk.inj hresult
    refine ⟨rfl, ?_, fun uses => a.symbols.extended_addReferences a.lineNumber _ uses⟩
    intro name
    constructor
    · intro hname
      cases hname
    · rintro ⟨word, hword, hword', -⟩
      exact absurd hword' (hplain word hword)

/-! ## Reading -/

/-- Words without a fault have their label bound and the names in their operands recorded. -/
theorem read_eq_ok {pc : Long} {words : List Word} {a b : Assembly} {label : Option String}
    {effect : Effect} (h : read pc words a = .ok (label, effect) b) :
    (∀ name, label = some name ↔ OwnLabel a.scope words name) ∧
      Extended a.lineNumber (.addr pc) label (Statement.names b.scope (unlabelled words)) a.symbols
        b.symbols ∧
      ∀ value, effect = .assign value → value.isDefined = true := by
  obtain ⟨f, b', -, hread⟩ | ⟨label', a₁, hlabel, ⟨effect', symbols, heffect, hread⟩ |
    ⟨f, symbols, -, hread⟩⟩ := read_cases pc words a
  · rw [hread] at h
    cases h
  · rw [hread] at h
    obtain ⟨hresult, rfl⟩ := EStateM.Result.ok.inj h
    obtain ⟨rfl, rfl⟩ := Prod.mk.inj hresult
    -- The uses of the statement come on top of the label, on the same line.
    obtain ⟨hnumber, hown, hextended⟩ := takeLabel_eq_ok hlabel
    have hsymbols := (Statement.records_effect _ _ _).ok heffect
    dsimp only [id] at hsymbols
    rw [hnumber] at hsymbols
    refine ⟨hown, ?_, ?_⟩
    · rw [hsymbols]
      exact hextended _
    · rintro value rfl
      exact Statement.isDefined_of_assign heffect
  · rw [hread] at h
    cases h

/-- Up to a fault, some of this has been done; and a fault about a redefinition tells what the table
says. -/
theorem read_eq_error {pc : Long} {words : List Word} {a b : Assembly} {f : Fault}
    (h : read pc words a = .error f b) :
    (∃ label uses, (∀ name, label = some name → OwnLabel a.scope words name) ∧
      uses <+: Statement.names b.scope (unlabelled words) ∧
      Extended a.lineNumber (.addr pc) label uses a.symbols b.symbols) ∧
    ∀ name line value, f = .redefinition name line value →
      ∃ s, a.symbols.get? name = some s ∧ s.isDefined = true ∧ line = s.definition?.getD 0 ∧
        value = s.value.toQuad := by
  obtain ⟨f', b', hlabel, hread⟩ | ⟨label, a₁, hlabel, ⟨effect, symbols, -, hread⟩ |
    ⟨f', symbols, heffect, hread⟩⟩ := read_cases pc words a
  · -- The label is refused before anything is recorded.
    rw [hread] at h
    obtain ⟨rfl, rfl⟩ := EStateM.Result.error.inj h
    obtain ⟨word, rest, -, -, ⟨name, b, -, htake⟩ | ⟨f, b, hbind, htake⟩⟩ | ⟨-, htake⟩ :=
      takeLabel_cases pc words a
    · rw [hlabel] at htake
      cases htake
    · rw [hlabel] at htake
      obtain ⟨rfl, rfl⟩ := EStateM.Result.error.inj htake
      constructor
      · refine ⟨none, [], ?_, List.nil_prefix, ?_⟩
        · intro name hname
          cases hname
        · obtain ⟨f, b, herror, hsymbols⟩ | ⟨b, hok, -⟩ := bindLabel_cases pc word.text a
          · rw [hbind] at herror
            obtain ⟨rfl, rfl⟩ := EStateM.Result.error.inj herror
            rw [hsymbols]
            exact a.symbols.extended_addReferences _ _ []
          · rw [hbind] at hok
            cases hok
      · rintro name line value rfl
        exact bindLabel_redefinition hbind
    · rw [hlabel] at htake
      cases htake
  · rw [hread] at h
    cases h
  · rw [hread] at h
    obtain ⟨rfl, rfl⟩ := EStateM.Result.error.inj h
    obtain ⟨hnumber, hown, hextended⟩ := takeLabel_eq_ok hlabel
    obtain ⟨hfault, uses, huses, hsymbols⟩ := (Statement.records_effect _ _ _).error heffect
    dsimp only [id] at hsymbols
    rw [hnumber] at hsymbols
    constructor
    · refine ⟨label, uses, fun name => (hown name).mp, huses, ?_⟩
      rw [hsymbols]
      exact hextended uses
    · rintro name line value rfl
      cases hfault

/-! ## Lines -/

/-- The label that a line binds, and the names that it uses. -/
structure Mentions where
  label : Option String
  uses : List String

/-- The mentions are what is written in the next line: its label, and the names in its operands, all
of them unless a fault ends the line. -/
structure Mentions.WrittenIn (m : Mentions) (a : Assembly) (source : String) : Prop where
  label : ∀ name, m.label = some name → OwnLabel a.scope (Word.code (a.nextWords source)) name
  uses : m.uses <+: a.namesOn source
  /-- A line that adds no diagnosis has no fault. -/
  faultless : (a.line source).diagnostics = a.diagnostics →
    m.uses = a.namesOn source ∧
      ∀ name, OwnLabel a.scope (Word.code (a.nextWords source)) name → m.label = some name

/-- A fault adds a diagnosis. -/
theorem diagnostics_ne_of_fault {a b : Assembly} {source text : String} {block : Block} {f : Fault}
    (hread : read a.nextPc (Word.code (a.nextWords source)) (a.begun block text) = .error f b)
    (hline : a.line source = (b.note (.faulty (a.lineNumber + 1) f)).keep
      { number := a.lineNumber + 1, pc := a.nextPc, source, words := a.nextWords source,
        outcome := .fault f }) : (a.line source).diagnostics ≠ a.diagnostics := by
  have hsame := (keeps_read _ _).of_error hread
  have hlines : (b.note (.faulty (a.lineNumber + 1) f)).lines = a.lines := hsame.lines
  have hfaults : (b.note (.faulty (a.lineNumber + 1) f)).readFaults = a.readFaults :=
    hsame.readFaults
  intro h
  rw [hline, diagnostics_keep rfl, diagnostics, diagnostics, hlines, hfaults] at h
  have hlength := congrArg List.length h
  rw [List.length_append, List.length_singleton] at hlength
  omega

/-- A line with words that adds no diagnosis carries an effect out. -/
theorem carried_of_faultless {a : Assembly} {source : String}
    (hfaultless : (a.line source).diagnostics = a.diagnostics) (hwords : a.nextWords source ≠ []) :
    ∃ block text label effect b,
      read a.nextPc (Word.code (a.nextWords source)) (a.begun block text) = .ok (label, effect) b ∧
      a.line source = (b.commit a.nextPc label effect).keep
        { number := a.lineNumber + 1, pc := effect.linePc a.nextPc, source,
          words := a.nextWords source, outcome := effect.outcome } := by
  obtain ⟨hnone, -⟩ | hcarried | ⟨block, text, f, b, hread, hline⟩ := a.line_outcomes source
  · exact absurd hnone hwords
  · exact hcarried
  · exact absurd hfaultless (diagnostics_ne_of_fault hread hline)

/-- Every line does to the symbols what it mentions. -/
theorem exists_mentions (a : Assembly) (source : String) :
    ∃ (m : Mentions) (value : Value), value.isDefined = true ∧ m.WrittenIn a source ∧
      Extended (a.lineNumber + 1) value m.label m.uses a.symbols (a.line source).symbols := by
  obtain ⟨hwords, block, hline⟩ | ⟨block, text, label, effect, b, hread, hline⟩ |
    ⟨block, text, f, b, hread, hline⟩ := a.line_outcomes source
  · -- Without words there is nothing to mention.
    refine ⟨⟨none, []⟩, .addr 0, rfl, ⟨?_, List.nil_prefix, fun _ => ⟨?_, ?_⟩⟩, ?_⟩
    · intro name h
      cases h
    · rw [namesOn, hwords]
      rfl
    · rintro name ⟨word, hword, -⟩
      rw [hwords] at hword
      cases hword
    · rw [hline]
      exact a.symbols.extended_addReferences _ _ []
  · -- An effect: the label is bound, and all names are recorded.
    obtain ⟨hown, hextended, hassign⟩ := read_eq_ok hread
    have hnames : a.namesOn source =
        Statement.names b.scope (unlabelled (Word.code (a.nextWords source))) := by
      rw [namesOn, hline]
      show Statement.names (b.commit a.nextPc label effect).scope _ = _
      rw [commit_scope]
    obtain ⟨value, hvalue, hcommit⟩ := extended_commit hextended hassign
    refine ⟨⟨label, a.namesOn source⟩, value, hvalue, ⟨fun name => (hown name).mp,
      List.prefix_rfl, fun _ => ⟨rfl, fun name => (hown name).mpr⟩⟩, ?_⟩
    rw [hnames, hline]
    exact hcommit
  · -- A fault: some of this has been done.
    obtain ⟨⟨label, uses, hown, huses, hextended⟩, -⟩ := read_eq_error hread
    have hnames : a.namesOn source =
        Statement.names b.scope (unlabelled (Word.code (a.nextWords source))) := by
      rw [namesOn, hline]
      rfl
    refine ⟨⟨label, uses⟩, .addr a.nextPc, rfl, ⟨hown, ?_, ?_⟩, ?_⟩
    · rw [hnames]
      exact huses
    · exact fun hfaultless => absurd hfaultless (diagnostics_ne_of_fault hread hline)
    · rw [hline]
      exact hextended

/-- The record of a line that tells of a redefinition tells what the table says before the line. -/
theorem redefinition_line (a : Assembly) (source : String) :
    (a.line source).lines = a.lines ∨
      ∃ record, record.number = a.lineNumber + 1 ∧ (a.line source).lines = a.lines.push record ∧
        ∀ name line value, record.outcome = .fault (.redefinition name line value) →
          ∃ s, a.symbols.get? name = some s ∧ s.isDefined = true ∧
            line = s.definition?.getD 0 ∧ value = s.value.toQuad := by
  obtain hlines | ⟨record, hnumber, hlines⟩ := a.lines_line source
  · exact .inl hlines
  refine .inr ⟨record, hnumber, hlines, fun name line value houtcome => ?_⟩
  obtain ⟨block, text, b, -, -, hread, -⟩ := line_of_faulty_push hlines houtcome
  exact (read_eq_error hread).2 name line value rfl

end Assembly

end PropellerAsm
