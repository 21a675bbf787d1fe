import PropellerAsm.Proofs.Assembly.Mentions
import PropellerAsm.Proofs.Operand
import PropellerAsm.Proofs.Text.Ascii
import PropellerAsm.Proofs.Word.Split

/-!
# Labels in operands

A label that is spelled like a name of the operand grammar can be used from its own line on: as an
operand it has the value that the line has bound it to, the program counter of the line or the
number assigned.  The line itself asks less of a label than the grammar asks of a name: any word
that is no keyword and starts with a letter is taken, so some labels can be bound and not be used.
-/
namespace PropellerAsm

open PropellerAsm.Expr (InName Blanks)

/-! ## Names as operands -/

/-- A label does not start with a digit. -/
theorem Statement.not_startsLabel_of_digit {b : UInt8} (h : Expr.isDigit b = true) :
    Statement.startsLabel (Char.ofNat b.toNat) = false := by
  have hall : ∀ n < 10, Statement.startsLabel (Char.ofNat (0x30 + n)) = false := by decide +kernel
  obtain ⟨hlow, hhigh⟩ := Bool.and_eq_true_iff.mp h
  have hlow : 0x30 ≤ b.toNat := UInt8.le_iff_toNat_le.mp (of_decide_eq_true hlow)
  have hhigh : b.toNat ≤ 0x39 := UInt8.le_iff_toNat_le.mp (of_decide_eq_true hhigh)
  have hb := hall (b.toNat - 0x30) (by omega)
  rwa [Nat.add_sub_cancel' hlow] at hb

namespace Operand

/-- A text of name bytes that may start a label is read as a name. -/
theorem parse_of_label {text : String} (hstart : text.toList.head?.any Statement.startsLabel = true)
    (hbytes : ∀ b ∈ Utf8.encode text, InName b) : parse text = ({}, .name text) := by
  have hchars : text.toList = (Utf8.encode text).map fun b => Char.ofNat b.toNat :=
    Utf8.chars_of_ascii fun b hb => (hbytes b hb).lt
  have hspelled : Utf8.ofAscii (Utf8.encode text) = text := by
    rw [Utf8.ofAscii, ← hchars, String.ofList_toList]
  have hnonempty : Utf8.encode text ≠ [] := by
    intro hnil
    rw [hchars, hnil] at hstart
    cases hstart
  have hdigit : ¬ Expr.DigitLed .decimal (Utf8.encode text) := by
    rintro ⟨b, more, hencode, hb⟩
    rw [hchars, hencode] at hstart
    have hstart : Statement.startsLabel (Char.ofNat b.toNat) = true := hstart
    rw [Statement.not_startsLabel_of_digit ((Expr.isDigit_iff b).mpr hb)] at hstart
    cases hstart
  have hend : ∀ b ∈ ([] : List UInt8).head?, ¬ InName b := by simp
  have hleaf := Expr.Leaf.name hnonempty hbytes hdigit hend
  rw [hspelled, List.append_nil] at hleaf
  exact parse_of_leaf hleaf

/-- A name that is no keyword has the value of its symbol. -/
theorem evaluate_of_label {ctx : Context} {text : String} {t : SymbolTable} {s : Symbol}
    (hparse : parse text = ({}, .name text)) (hkeyword : Keyword.find? text = none)
    (hget : t.get? (Symbol.qualify ctx.scope text) = some s) :
    evaluate ctx text t = .ok { value := s.value.toQuad }
      (t.addReference ctx.line (Symbol.qualify ctx.scope text)) := by
  have hvalue : ctx.resolve text t = .ok s.value.toQuad
      (t.addReference ctx.line (Symbol.qualify ctx.scope text)) := by
    unfold Context.resolve
    rw [hkeyword]
    show EStateM.Result.ok ((SymbolTable.lookup _ _).value.toQuad) _ = _
    rw [SymbolTable.lookup_addReference_value, SymbolTable.lookup, hget]
    rfl
  unfold evaluate
  rw [hparse]
  exact bind_of_ok hvalue

end Operand

/-! ## What a statement asks for its label -/

namespace Statement

theorem effect_of_assign {ctx : Context} {sign : Word} {rest : List Word}
    (h : sign.token = .keyword .assign) :
    effect ctx true (sign :: rest) =
      (do return .assign (numberValue (← Directive.assigned ctx rest))) := by
  have htake : takeCondition (sign :: rest) = .ok ({}, sign :: rest) := by
    rw [takeCondition, h]
  unfold effect
  rw [htake]
  dsimp only
  rw [h]
  rfl

end Statement

/-- The value that an effect leaves the label of a line with. -/
def Effect.labelValue (pc : Long) : Effect → Value
  | assign value => value
  | effect => .addr (effect.linePc pc)

namespace Assembly

/-! ## Binding a label -/

/-- A label that is bound may start one, is filed under the scope that it leaves, and is defined
there. -/
theorem bindLabel_eq_ok {pc : Long} {text name : String} {a b : Assembly}
    (h : bindLabel pc text a = .ok name b) :
    text.toList.head?.any Statement.startsLabel = true ∧ name = Symbol.qualify b.scope text ∧
      a.symbols.define? name (.addr pc) a.lineNumber = some b.symbols := by
  obtain ⟨f, b', herror, -⟩ | ⟨b', hok, -, hdefine⟩ := bindLabel_cases pc text a
  · rw [h] at herror
    cases herror
  rw [h] at hok
  obtain ⟨rfl, rfl⟩ := EStateM.Result.ok.inj hok
  refine ⟨?_, ?_, hdefine⟩
  · unfold bindLabel at h
    split at h
    · assumption
    · cases h
  · -- A global label is its own full name in every scope.
    unfold Symbol.qualify
    by_cases hlocal : Symbol.isLocal text = true
    · have hscope : b.scope = a.scope := by
        unfold bindLabel at h
        split at h
        · simp only at h
          split at h
          · obtain ⟨-, rfl⟩ := EStateM.Result.ok.inj h
            rfl
          · cases h
        · cases h
      rw [hscope]
    · rw [if_neg hlocal, if_neg hlocal]

/-- Words that start with a label: it is bound, and the words behind it are read. -/
theorem read_label_eq_ok {pc : Long} {word : Word} {rest : List Word} {a b : Assembly}
    {label : Option String} {effect : Effect} (hplain : word.token = .plain)
    (h : read pc (word :: rest) a = .ok (label, effect) b) :
    word.text.toList.head?.any Statement.startsLabel = true ∧
      label = some (Symbol.qualify b.scope word.text) ∧
      ∃ t, a.symbols.define? (Symbol.qualify b.scope word.text) (.addr pc) a.lineNumber = some t ∧
        Statement.effect { scope := b.scope, line := a.lineNumber, pc } true rest t =
          .ok effect b.symbols := by
  have hunlabelled : unlabelled (word :: rest) = rest := if_pos hplain
  obtain ⟨f, b', -, hread⟩ | ⟨label', a₁, hlabel, ⟨effect', symbols, heffect, hread⟩ |
    ⟨f, symbols, -, hread⟩⟩ := read_cases pc (word :: rest) a
  · rw [h] at hread
    cases hread
  swap
  · rw [h] at hread
    cases hread
  rw [h] at hread
  obtain ⟨hresult, rfl⟩ := EStateM.Result.ok.inj hread
  obtain ⟨rfl, rfl⟩ := Prod.mk.inj hresult
  obtain ⟨name, a₂, hbind, hpure⟩ := bind_eq_ok_iff.mp (by rwa [takeLabel, if_pos hplain] at hlabel)
  obtain ⟨hpair, rfl⟩ := pure_eq_ok_iff.mp hpure
  obtain ⟨rfl, -⟩ := Prod.mk.inj hpair
  obtain ⟨hstart, rfl, hdefine⟩ := bindLabel_eq_ok hbind
  have hnumber : a₂.lineNumber = a.lineNumber := ((keeps_bindLabel _ _).of_ok hbind).lineNumber
  rw [hunlabelled, hnumber] at heffect
  exact ⟨hstart, rfl, a₂.symbols, hdefine, heffect⟩

/-- What a label is bound to on its line stays, or is replaced by what the effect asks for. -/
theorem get?_commit_label {a : Assembly} {pc : Long} {name : String} {s : Symbol}
    (hget : a.symbols.get? name = some s) (hvalue : s.value = .addr pc) (effect : Effect) :
    (a.commit pc (some name) effect).symbols.get? name =
      some { s with value := effect.labelValue pc } := by
  have hsame : s = { s with value := .addr pc } := by rw [← hvalue]
  have hrebind : ∀ {b : Assembly}, b.symbols = a.symbols → ∀ value,
      (b.rebind (some name) value).symbols.get? name = some { s with value } := by
    intro b hsymbols value
    show ((b.symbols.setValue? name value).getD b.symbols).get? name = _
    rw [hsymbols, SymbolTable.setValue?, hget]
    show (a.symbols.put name { s with value }).get? name = _
    rw [SymbolTable.get?_put, if_pos rfl]
  cases effect with
  | nothing => exact hget.trans (congrArg some hsame)
  | code mnemonic e =>
    rw [(a.onlyStored_code pc (some name) mnemonic e).symbols]
    exact hget.trans (congrArg some hsame)
  | data bytes =>
    rw [(a.onlyStored_data pc (some name) bytes).symbols]
    exact hget.trans (congrArg some hsame)
  | reserve next => exact hget.trans (congrArg some hsame)
  | origin org => exact hrebind rfl _
  | assign value => exact hrebind rfl value

/-- The words of the next line are classified. -/
theorem classified_nextWords (a : Assembly) (source : String) :
    ∀ word ∈ a.nextWords source, word.Classified := by
  unfold nextWords Block.split
  split
  · exact fun word hword => nomatch hword
  · split
    · exact fun word hword => nomatch hword
    · rw [Option.getD_some]
      exact Word.classified_split _

/-! ## Using a label -/

/-- The value that a line binds its label to.  It is the program counter in the record of the line,
or the number behind an equals sign, which is evaluated where the label is already bound. -/
inductive BindsTo (a : Assembly) (record : Line) (scope label : String) (rest : List Word) :
    Value → Prop where
  | place (unassigned : ∀ word ∈ rest.head?, word.token ≠ .keyword .assign) :
      BindsTo a record scope label rest (.addr record.pc)
  | number {sign more t t' n} (assigned : rest = sign :: more)
      (token : sign.token = .keyword .assign)
      (bound : a.symbols.define? label (.addr a.nextPc) (a.lineNumber + 1) = some t)
      (value : Directive.assigned { scope, line := a.lineNumber + 1, pc := a.nextPc } more t =
        .ok n t') :
      BindsTo a record scope label rest (Statement.numberValue n)

/-- What the words behind a label ask for decides what it is bound to. -/
theorem bindsTo_of_effect {a : Assembly} {record : Line} {scope label : String} {rest : List Word}
    {t t' : SymbolTable} {effect : Effect} (hpc : record.pc = effect.linePc a.nextPc)
    (hbound : a.symbols.define? label (.addr a.nextPc) (a.lineNumber + 1) = some t)
    (heffect : Statement.effect { scope, line := a.lineNumber + 1, pc := a.nextPc } true rest t =
      .ok effect t') :
    a.BindsTo record scope label rest (effect.labelValue a.nextPc) := by
  by_cases hassign : ∀ word ∈ rest.head?, word.token ≠ .keyword .assign
  · have hvalue : effect.labelValue a.nextPc = .addr record.pc := by
      rw [hpc]
      cases effect with
      | assign value => exact absurd rfl (Statement.effect_ne_assign hassign heffect value)
      | _ => rfl
    rw [hvalue]
    exact .place hassign
  · cases rest with
    | nil => simp at hassign
    | cons sign more =>
      have htoken : sign.token = .keyword .assign := by simpa using hassign
      rw [Statement.effect_of_assign htoken] at heffect
      obtain ⟨n, t₁, hassigned, hpure⟩ := bind_eq_ok_iff.mp heffect
      obtain ⟨rfl, -⟩ := pure_eq_ok_iff.mp hpure
      exact .number rfl htoken hbound hassigned

theorem BindsTo.isDefined {a : Assembly} {record : Line} {scope label : String} {rest : List Word}
    {value : Value} (h : a.BindsTo record scope label rest value) : value.isDefined = true := by
  cases h with
  | place unassigned => rfl
  | number assigned token bound value =>
    unfold Statement.numberValue
    split
    · rfl
    · rfl

/-- A line without a fault that starts with a plain word spelled like a name has bound it, and from
then on, in its scope, the word is an operand with the value that it has been bound to. -/
theorem label_evaluates_to_bound_value {a : Assembly} {source : String} {word : Word}
    {rest : List Word} (hfaultless : (a.line source).diagnostics = a.diagnostics)
    (hwords : Word.code (a.nextWords source) = word :: rest) (hplain : word.token = .plain)
    (hname : ∀ b ∈ Utf8.encode word.text, InName b) :
    ∃ record s, (a.line source).lines = a.lines.push record ∧
      (a.line source).symbols.get? (Symbol.qualify (a.line source).scope word.text) = some s ∧
      s.definition? = some (a.lineNumber + 1) ∧
      a.BindsTo record (a.line source).scope (Symbol.qualify (a.line source).scope word.text) rest
        s.value ∧
      ∀ ctx : Context, ctx.scope = (a.line source).scope →
        ∃ t, Operand.evaluate ctx word.text (a.line source).symbols =
          .ok { value := s.value.toQuad } t := by
  have hne : a.nextWords source ≠ [] := by
    intro hnil
    rw [hnil] at hwords
    cases hwords
  obtain ⟨block, text, label, effect, b, hread, hline⟩ := carried_of_faultless hfaultless hne
  have hkeyword : Keyword.find? word.text = none := by
    have hmem : word ∈ Word.code (a.nextWords source) := by simp [hwords]
    exact (a.classified_nextWords source word (List.mem_filter.mp hmem).1).find?_eq_none hplain
  obtain ⟨-, hextended, -⟩ := read_eq_ok hread
  have hlines : b.lines = a.lines := ((keeps_read _ _).of_ok hread).lines
  have hscope : (a.line source).scope = b.scope := by
    rw [hline]
    exact commit_scope b a.nextPc label effect
  rw [hwords] at hread
  obtain ⟨hstart, rfl, t, hdefine, heffect⟩ := read_label_eq_ok hplain hread
  rw [hscope]
  -- The symbol of the label after reading, and then after the effect.
  have hread : b.symbols.get? (Symbol.qualify b.scope word.text) = _ :=
    (hextended.symbols _).trans (if_pos rfl)
  have hget := get?_commit_label hread rfl effect
  generalize hrecord : Line.mk (a.lineNumber + 1) (effect.linePc a.nextPc) source
    (a.nextWords source) effect.outcome = record at hline
  have hpc : record.pc = effect.linePc a.nextPc := by rw [← hrecord]
  have hbinds := bindsTo_of_effect hpc hdefine heffect
  have hsymbols : (b.commit a.nextPc (some (Symbol.qualify b.scope word.text)) effect).symbols =
      (a.line source).symbols := by rw [hline]; rfl
  rw [hsymbols] at hget
  refine ⟨record, _, ?_, hget, if_pos hbinds.isDefined, hbinds, ?_⟩
  · rw [hline, keep, lines_commit, hlines]
  · intro ctx hctx
    refine ⟨_, Operand.evaluate_of_label (Operand.parse_of_label hstart hname) hkeyword ?_⟩
    rw [hctx]
    exact hget

/-- A local label behind a global one. -/
theorem local_label_evaluates_to_bound_value :
    ((({} : Assembly).line "main nop").line ".loop long $").diagnostics =
      (({} : Assembly).line "main nop").diagnostics ∧
    (∃ s, ((({} : Assembly).line "main nop").line ".loop long $").symbols.get? "main.loop" =
        some s ∧ s.definition? = some 2 ∧
      ∃ t, Operand.evaluate { scope := "main" } ".loop"
        ((({} : Assembly).line "main nop").line ".loop long $").symbols =
          .ok { value := s.value.toQuad } t) := by
  have hfaultless : ((({} : Assembly).line "main nop").line ".loop long $").diagnostics =
      (({} : Assembly).line "main nop").diagnostics := by decide +kernel
  have hwords : Word.code ((({} : Assembly).line "main nop").nextWords ".loop long $") =
      [⟨".loop", .plain, 0, false⟩, ⟨"long", .keyword (.directive .long), 6, false⟩,
        ⟨"$", .plain, 11, false⟩] := by decide +kernel
  have hscope : ((({} : Assembly).line "main nop").line ".loop long $").scope = "main" := by
    decide +kernel
  have hnumber : (({} : Assembly).line "main nop").lineNumber + 1 = 2 := by decide +kernel
  have hname : ∀ b ∈ Utf8.encode ".loop", InName b := by
    intro b hb
    rw [← Expr.isNameByte_iff]
    exact List.all_eq_true.mp (by decide +kernel) b hb
  obtain ⟨record, s, -, hget, hdefinition, -, hevaluate⟩ :=
    label_evaluates_to_bound_value hfaultless hwords rfl hname
  rw [hscope] at hget hevaluate
  rw [hnumber] at hdefinition
  exact ⟨hfaultless, s, hget, hdefinition, hevaluate _ rfl⟩

/-- A label with a letter outside of ASCII, or with an operator inside, is bound without a fault;
as an operand the first is malformed, and the second is an expression with another value. -/
theorem labels_not_spelled_like_names :
    ((({} : Assembly).line "é nop").diagnostics = [] ∧
      Word.code (({} : Assembly).nextWords "é nop") =
        [⟨"é", .plain, 0, false⟩, Word.ofText "nop" 2 false] ∧
      ((({} : Assembly).line "é nop").symbols.get? "é").map Symbol.definition? = some (some 1) ∧
      (match Operand.evaluate { scope := (({} : Assembly).line "é nop").scope } "é"
          (({} : Assembly).line "é nop").symbols with
        | .error f _ => some f
        | .ok _ _ => none) = some (.invalidExpression "é")) ∧
    (((({} : Assembly).line " nop").line "a+b nop").diagnostics = [] ∧
      Word.code ((({} : Assembly).line " nop").nextWords "a+b nop") =
        [⟨"a+b", .plain, 0, false⟩, Word.ofText "nop" 4 false] ∧
      (((({} : Assembly).line " nop").line "a+b nop").symbols.get? "a+b").map
        (fun s => (s.definition?, s.value.toQuad)) = some (some 2, 1) ∧
      (match Operand.evaluate
          { scope := ((({} : Assembly).line " nop").line "a+b nop").scope } "a+b"
          ((({} : Assembly).line " nop").line "a+b nop").symbols with
        | .error _ _ => none
        | .ok operand _ => some operand) = some { value := 0 }) := by
  decide +kernel

end Assembly

end PropellerAsm
