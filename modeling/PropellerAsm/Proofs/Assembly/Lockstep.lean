import PropellerAsm.Proofs.Assembly.Mentions
import PropellerAsm.Proofs.Encoding.Lockstep

/-!
# Lines assembled side by side

Two passes take up a line with words that stand for each other.  They may count their lines
differently and record other lines in their symbol tables; the image, the program counters and the
scope are the same.  The same holds behind the line, and the records of the two passes tell the
same, but for the texts that a fault quotes and for the line of an earlier definition in a fault
about a redefinition.  If the line has a fault, the tables behind it are related only as a
variation says of tables behind a fault.
-/
namespace PropellerAsm

/-! ## Renumbered lines -/

/-- The fault with the line that it tells moved by `φ`. -/
def Fault.renumber (φ : Nat → Nat) : Fault → Fault
  | redefinition name line value => .redefinition name (φ line) value
  | f => f

theorem Fault.renumber_of_not {f : Fault} (h : f.isRedefinition = false) (φ : Nat → Nat) :
    f.renumber φ = f := by
  cases f with
  | redefinition name line value => cases h
  | _ => rfl

/-- The outcome with the line that its fault tells moved by `φ`. -/
def Outcome.renumber (φ : Nat → Nat) : Outcome → Outcome
  | fault f => .fault (f.renumber φ)
  | outcome => outcome

theorem Effect.renumber_outcome (φ : Nat → Nat) (effect : Effect) :
    effect.outcome.renumber φ = effect.outcome := by
  cases effect with
  | _ => rfl

/-- Effects that show the same differ in a mnemonic at most. -/
theorem Effect.cases_of_mapText {view : String → String} {effect effect' : Effect}
    (h : effect.mapText view = effect'.mapText view) :
    effect = effect' ∨
      ∃ mnemonic mnemonic' e, effect = .code mnemonic e ∧ effect' = .code mnemonic' e := by
  cases effect with
  | code mnemonic e =>
    cases effect' with
    | code mnemonic' e' =>
      obtain ⟨-, rfl⟩ := Effect.code.inj h
      exact .inr ⟨mnemonic, mnemonic', e, rfl, rfl⟩
    | _ => cases h
  | _ =>
    cases effect' with
    | code => cases h
    | _ => exact .inl h

/-- Tables that `Q` relates agree on all values, tell lines that `φ` relates, and stay related when
the passes do the same to both. -/
structure SymbolTable.Tracked (Q : SymbolTable → SymbolTable → Prop) (φ : Nat → Nat)
    (line line' : Nat) : Prop extends SymbolTable.Coupled Q line line' where
  definition {t t' : SymbolTable} (h : Q t t') (name : String) :
    (t'.lookup name).definition?.getD 0 = φ ((t.lookup name).definition?.getD 0)
  define {t t' : SymbolTable} (h : Q t t') (name : String) (value : Value) :
    Option.Rel Q (t.define? name value line) (t'.define? name value line')
  set {t t' : SymbolTable} (h : Q t t') (name : String) (value : Value) :
    Q ((t.setValue? name value).getD t) ((t'.setValue? name value).getD t')

namespace Assembly

/-- Two passes that differ in their line numbers and records, and in symbol tables that `Q`
relates. -/
structure Beside (Q : SymbolTable → SymbolTable → Prop) (a b : Assembly) : Prop where
  block : b.block = a.block
  symbols : Q a.symbols b.symbols
  image : b.image = a.image
  imageEnd : b.imageEnd = a.imageEnd
  nextPc : b.nextPc = a.nextPc
  lastPc : b.lastPc = a.lastPc
  scope : b.scope = a.scope

theorem Beside.refl (a : Assembly) : Beside Eq a a :=
  ⟨rfl, rfl, rfl, rfl, rfl, rfl, rfl⟩

theorem Beside.imp {Q Q' : SymbolTable → SymbolTable → Prop} {a b : Assembly} (h : Beside Q a b)
    (himp : ∀ t t', Q t t' → Q' t t') : Beside Q' a b :=
  ⟨h.block, himp _ _ h.symbols, h.image, h.imageEnd, h.nextPc, h.lastPc, h.scope⟩

section

variable {Q : SymbolTable → SymbolTable → Prop} {φ : Nat → Nat} {a b : Assembly}

/-! ## Reading -/

theorem evaluate_of_ok {α : Type} {m : Evaluator α} {x : α} {t : SymbolTable}
    (h : m a.symbols = .ok x t) : evaluate m a = .ok x { a with symbols := t } := by
  rw [evaluate, h]

theorem evaluate_of_error {α : Type} {m : Evaluator α} {f : Fault} {t : SymbolTable}
    (h : m a.symbols = .error f t) : evaluate m a = .error f { a with symbols := t } := by
  rw [evaluate, h]

/-- The label of a line is bound in both passes, or refused in both. -/
theorem bindLabel_beside (h : Beside Q a b)
    (hQ : SymbolTable.Tracked Q φ a.lineNumber b.lineNumber) (pc : Long) (text : String) :
    (∃ name a' b', bindLabel pc text a = .ok name a' ∧ bindLabel pc text b = .ok name b' ∧
      Beside Q a' b') ∨
    (∃ f a' b', bindLabel pc text a = .error f a' ∧
      bindLabel pc text b = .error (f.renumber φ) b' ∧ Beside Q a' b') := by
  unfold bindLabel
  split
  swap
  · exact .inr ⟨_, a, b, rfl, rfl, h⟩
  dsimp only
  rw [h.scope]
  generalize Symbol.qualify a.scope text = name
  -- A global label becomes the scope of both passes.
  have hscoped : Beside Q (if Symbol.isLocal text then a else { a with scope := name })
      (if Symbol.isLocal text then b else { b with scope := name }) := by
    split
    · exact h
    · exact ⟨h.block, h.symbols, h.image, h.imageEnd, h.nextPc, h.lastPc, rfl⟩
  have hnumber : (if Symbol.isLocal text then a else { a with scope := name }).lineNumber =
      a.lineNumber := by
    split
    · rfl
    · rfl
  have hnumber' : (if Symbol.isLocal text then b else { b with scope := name }).lineNumber =
      b.lineNumber := by
    split
    · rfl
    · rfl
  generalize (if Symbol.isLocal text then a else { a with scope := name }) = a₁ at *
  generalize (if Symbol.isLocal text then b else { b with scope := name }) = b₁ at *
  rw [← hnumber, ← hnumber'] at hQ
  have hdefine := hQ.define hscoped.symbols name (.addr pc)
  generalize a₁.symbols.define? name (.addr pc) a₁.lineNumber = x at hdefine
  generalize b₁.symbols.define? name (.addr pc) b₁.lineNumber = y at hdefine
  cases hdefine with
  | none =>
    refine .inr ⟨_, a₁, b₁, rfl, ?_, hscoped⟩
    rw [Fault.renumber, hQ.definition hscoped.symbols, hQ.value hscoped.symbols]
  | some hsymbols =>
    exact .inl ⟨name, _, _, rfl, rfl, hscoped.block, hsymbols, hscoped.image, hscoped.imageEnd,
      hscoped.nextPc, hscoped.lastPc, hscoped.scope⟩

section

variable {V : Variation} (hV : V.Sound a.lineNumber b.lineNumber) {words words' : List Word}
  (hwords : List.Forall₂ V.word words words')

include hV hwords

theorem takeLabel_varied (h : Beside V.table a b)
    (hQ : SymbolTable.Tracked V.table φ a.lineNumber b.lineNumber) (pc : Long) :
    (∃ label a' b', takeLabel pc words a = .ok (label, unlabelled words) a' ∧
      takeLabel pc words' b = .ok (label, unlabelled words') b' ∧ Beside V.table a' b') ∨
    (∃ f a' b', takeLabel pc words a = .error f a' ∧
      takeLabel pc words' b = .error (f.renumber φ) b' ∧ Beside V.table a' b') := by
  cases hwords with
  | nil => exact .inl ⟨none, a, b, rfl, rfl, h⟩
  | cons hword hrest =>
    unfold takeLabel unlabelled
    dsimp only
    rw [← hV.token hword]
    split
    · next hplain =>
      rw [← hV.plain hword hplain]
      obtain ⟨name, a', b', ha, hb, h'⟩ | ⟨f, a', b', ha, hb, h'⟩ := bindLabel_beside h hQ pc _
      · exact .inl ⟨some name, a', b', bind_of_ok ha, bind_of_ok hb, h'⟩
      · exact .inr ⟨f, a', b', bind_of_error ha, bind_of_error hb, h'⟩
    · exact .inl ⟨none, a, b, rfl, rfl, h⟩

theorem unlabelled_varied : List.Forall₂ V.word (unlabelled words) (unlabelled words') := by
  cases hwords with
  | nil => exact .nil
  | cons hword hrest =>
    unfold unlabelled
    dsimp only
    rw [hV.token hword]
    split
    · exact hrest
    · exact .cons hword hrest

/-- The words of a line ask for the same in both passes, or have the same fault, but for the texts
that are quoted. -/
theorem read_varied (h : Beside V.table a b)
    (hQ : SymbolTable.Tracked V.table φ a.lineNumber b.lineNumber) (pc : Long) :
    (∃ label effect effect' a' b', read pc words a = .ok (label, effect) a' ∧
      read pc words' b = .ok (label, effect') b' ∧
      effect.mapText V.view = effect'.mapText V.view ∧ Beside V.table a' b') ∨
    (∃ f f' a' b', read pc words a = .error f a' ∧ read pc words' b = .error f' b' ∧
      (f.renumber φ).mapText V.view = f'.mapText V.view ∧ Beside V.stopped a' b') := by
  obtain ⟨label, a₁, b₁, ha, hb, h₁⟩ | ⟨f, a', b', ha, hb, h'⟩ :=
    takeLabel_varied hV hwords h hQ pc
  swap
  · exact .inr ⟨f, _, a', b', bind_of_error ha, bind_of_error hb, rfl, h'.imp fun _ _ => V.stop⟩
  have hnumber : a₁.lineNumber = a.lineNumber := ((keeps_takeLabel _ _).of_ok ha).lineNumber
  have hnumber' : b₁.lineNumber = b.lineNumber := ((keeps_takeLabel _ _).of_ok hb).lineNumber
  have hget : (get : Assembler Assembly) a₁ = .ok a₁ a₁ := rfl
  have hget' : (get : Assembler Assembly) b₁ = .ok b₁ b₁ := rfl
  have hunlabelled := unlabelled_varied hV hwords
  rw [← hnumber, ← hnumber'] at hV
  have hsound : V.Sound
      ({ scope := a₁.scope, line := a₁.lineNumber, pc } : Context).line b₁.lineNumber := hV
  have heffect := Statement.lockstep_effect hsound hunlabelled label.isSome a₁.symbols b₁.symbols
    h₁.symbols
  unfold read
  rw [bind_of_ok ha, bind_of_ok hb]
  dsimp only
  rw [bind_of_ok hget, bind_of_ok hget', h₁.scope]
  generalize hx : Statement.effect { scope := a₁.scope, line := a₁.lineNumber, pc } label.isSome
    (unlabelled words) a₁.symbols = x at heffect
  generalize hy : Statement.effect (Context.onLine { scope := a₁.scope, line := a₁.lineNumber, pc }
    b₁.lineNumber) label.isSome (unlabelled words') b₁.symbols = y at heffect
  cases heffect with
  | @ok effect effect' t t' hresult ht =>
    exact .inl ⟨label, effect, effect', _, _, bind_of_ok (evaluate_of_ok hx),
      bind_of_ok (evaluate_of_ok hy), hresult, h₁.block, ht, h₁.image, h₁.imageEnd, h₁.nextPc,
      h₁.lastPc, h₁.scope⟩
  | @error f f' t t' hfault ht =>
    right
    -- A statement has no fault about a redefinition.
    have hstatement := ((Statement.records_effect _ _ _).error hx).1
    refine ⟨f, f', _, { b₁ with symbols := t' }, bind_of_error (evaluate_of_error hx),
      bind_of_error (evaluate_of_error hy), ?_, h₁.block, ht, h₁.image, h₁.imageEnd, h₁.nextPc,
      h₁.lastPc, h₁.scope⟩
    rw [Fault.renumber_of_not hstatement]
    exact hfault

end

/-- The words of a line ask for the same in both passes, or have the same fault. -/
theorem read_beside (h : Beside Q a b)
    (hQ : SymbolTable.Tracked Q φ a.lineNumber b.lineNumber) {words words' : List Word}
    (hwords : List.Forall₂ Word.SameSpelling words words') (pc : Long) :
    (∃ label effect a' b', read pc words a = .ok (label, effect) a' ∧
      read pc words' b = .ok (label, effect) b' ∧ Beside Q a' b') ∨
    (∃ f a' b', read pc words a = .error f a' ∧ read pc words' b = .error (f.renumber φ) b' ∧
      Beside Q a' b') := by
  obtain ⟨label, effect, effect', a', b', ha, hb, heffect, h'⟩ | ⟨f, f', a', b', ha, hb, hf, h'⟩ :=
    read_varied (Variation.sound_columns hQ.toCoupled) hwords h hQ pc
  · obtain rfl : effect = effect' := by
      rw [← effect.mapText_id, ← effect'.mapText_id]
      exact heffect
    exact .inl ⟨label, effect, a', b', ha, hb, h'⟩
  · obtain rfl : f.renumber φ = f' := by
      rw [← (f.renumber φ).mapText_id, ← f'.mapText_id]
      exact hf
    exact .inr ⟨f, a', b', ha, hb, h'⟩

/-! ## Effects -/

theorem store_beside (h : Beside Q a b) (addr : Nat) (bytes : List UInt8) :
    Beside Q (a.store addr bytes) (b.store addr bytes) := by
  unfold store
  rw [h.image, h.imageEnd]
  split
  · exact ⟨h.block, h.symbols, rfl, rfl, h.nextPc, h.lastPc, h.scope⟩
  · exact ⟨h.block, h.symbols, h.image, h.imageEnd, h.nextPc, h.lastPc, h.scope⟩

theorem storeLongs_beside (h : Beside Q a b) (pc : Long) (longs : List Long) :
    Beside Q (a.storeLongs pc longs) (b.storeLongs pc longs) := by
  induction longs generalizing a b pc with
  | nil => exact ⟨h.block, h.symbols, h.image, h.imageEnd, rfl, h.lastPc, h.scope⟩
  | cons long longs ih => exact ih (store_beside h _ _) _

theorem rebind_beside {line line' : Nat} (hQ : SymbolTable.Tracked Q φ line line')
    (h : Beside Q a b) (label : Option String) (value : Value) :
    Beside Q (a.rebind label value) (b.rebind label value) := by
  cases label with
  | none => exact h
  | some name =>
    exact ⟨h.block, hQ.set h.symbols name value, h.image, h.imageEnd, h.nextPc, h.lastPc,
      h.scope⟩

theorem commit_code_beside (h : Beside Q a b) (pc : Long) (label : Option String)
    (mnemonic mnemonic' : String) (e : Encoded) :
    Beside Q (a.commit pc label (.code mnemonic e)) (b.commit pc label (.code mnemonic' e)) := by
  refine storeLongs_beside ?_ pc e.longs
  exact ⟨h.block, h.symbols, h.image, h.imageEnd, h.nextPc, h.lastPc, h.scope⟩

theorem commit_beside {line line' : Nat} (hQ : SymbolTable.Tracked Q φ line line')
    (h : Beside Q a b) (pc : Long) (label : Option String) {view : String → String}
    {effect effect' : Effect} (heffect : effect.mapText view = effect'.mapText view) :
    Beside Q (a.commit pc label effect) (b.commit pc label effect') := by
  obtain rfl | ⟨mnemonic, mnemonic', e, rfl, rfl⟩ := Effect.cases_of_mapText heffect
  swap
  · exact commit_code_beside h pc label mnemonic mnemonic' e
  cases effect with
  | nothing => exact h
  | code mnemonic e => exact commit_code_beside h pc label mnemonic mnemonic e
  | data bytes =>
    have hstored : Beside Q (if bytes.isEmpty then a else a.store (Address.toByte pc) bytes)
        (if bytes.isEmpty then b else b.store (Address.toByte pc) bytes) := by
      split
      · exact h
      · exact store_beside h _ _
    exact ⟨hstored.block, hstored.symbols, hstored.image, hstored.imageEnd, rfl, hstored.lastPc,
      hstored.scope⟩
  | reserve next => exact ⟨h.block, h.symbols, h.image, h.imageEnd, rfl, h.lastPc, h.scope⟩
  | origin org =>
    refine rebind_beside hQ ?_ label _
    exact ⟨h.block, h.symbols, h.image, h.imageEnd, rfl, h.lastPc, h.scope⟩
  | assign value => exact rebind_beside hQ h label value

theorem keep_beside (h : Beside Q a b) (line line' : Line) :
    Beside Q (a.keep line) (b.keep line') := by
  refine ⟨h.block, h.symbols, h.image, h.imageEnd, h.nextPc, ?_, h.scope⟩
  show (if b.lastPc.toNat < b.nextPc.toNat then b.nextPc else b.lastPc) =
    if a.lastPc.toNat < a.nextPc.toNat then a.nextPc else a.lastPc
  rw [h.lastPc, h.nextPc]

/-! ## Lines -/

theorem line_of_nextWords {a : Assembly} {source : String} (h : a.nextWords source = []) :
    a.line source = { a with
      lineNumber := a.lineNumber + 1, block := (a.block.split (Text.expandTabs source)).2 } := by
  obtain ⟨-, hline⟩ | ⟨hne, -⟩ := a.line_eq source
  · exact hline
  · exact absurd h hne

theorem assembleWords_of_ok {words : List Word} {label : Option String} {effect : Effect}
    (source : String) (h : read a.nextPc (Word.code words) a = .ok (label, effect) b) :
    a.assembleWords source words = (b.commit a.nextPc label effect).keep
      { number := a.lineNumber, pc := effect.linePc a.nextPc, source, words,
        outcome := effect.outcome } := by
  unfold assembleWords
  dsimp only
  rw [h]

theorem assembleWords_of_error {words : List Word} {f : Fault} (source : String)
    (h : read a.nextPc (Word.code words) a = .error f b) :
    a.assembleWords source words = (b.note (.faulty a.lineNumber f)).keep
      { number := a.lineNumber, pc := a.nextPc, source, words, outcome := .fault f } := by
  unfold assembleWords
  dsimp only
  rw [h]

/-- What a line comes to in two passes. -/
inductive LineAlike (V : Variation) (φ : Nat → Nat) (a b : Assembly) (source source' : String) :
    Prop where
  | none (unrecorded : (a.line source).lines = a.lines)
      (unrecorded' : (b.line source').lines = b.lines)
      (beside : Beside V.table (a.line source) (b.line source'))
  | effect (pc : Long) (effect : Effect)
      (recorded : (a.line source).lines = a.lines.push
        { number := a.lineNumber + 1, pc, source, words := a.nextWords source,
          outcome := effect.outcome })
      (recorded' : (b.line source').lines = b.lines.push
        { number := b.lineNumber + 1, pc, source := source', words := b.nextWords source',
          outcome := effect.outcome })
      (beside : Beside V.table (a.line source) (b.line source'))
  | fault (pc : Long) (f f' : Fault)
      (recorded : (a.line source).lines = a.lines.push
        { number := a.lineNumber + 1, pc, source, words := a.nextWords source,
          outcome := .fault f })
      (recorded' : (b.line source').lines = b.lines.push
        { number := b.lineNumber + 1, pc, source := source', words := b.nextWords source',
          outcome := .fault f' })
      (alike : (f.renumber φ).mapText V.view = f'.mapText V.view)
      (beside : Beside V.stopped (a.line source) (b.line source'))

/-- Two passes that are beside each other before a line with words that stand for each other come to
the same with it. -/
theorem line_varied {V : Variation} (h : Beside V.table a b)
    (hV : V.Sound (a.lineNumber + 1) (b.lineNumber + 1))
    (hQ : SymbolTable.Tracked V.table φ (a.lineNumber + 1) (b.lineNumber + 1))
    {source source' : String}
    (hblock : (b.block.split (Text.expandTabs source')).2 =
      (a.block.split (Text.expandTabs source)).2)
    (hnone : a.nextWords source = [] ↔ b.nextWords source' = [])
    (hwords : List.Forall₂ V.word (Word.code (a.nextWords source))
      (Word.code (b.nextWords source'))) :
    LineAlike V φ a b source source' := by
  obtain ⟨hnil, hline⟩ | ⟨hsome, text, hline⟩ := a.line_eq source
  · have hline' := line_of_nextWords (hnone.mp hnil)
    refine .none (by rw [hline]) (by rw [hline']) ?_
    rw [hline, hline']
    exact ⟨hblock, h.symbols, h.image, h.imageEnd, h.nextPc, h.lastPc, h.scope⟩
  obtain ⟨hnil', -⟩ | ⟨-, text', hline'⟩ := b.line_eq source'
  · exact absurd (hnone.mpr hnil') hsome
  generalize (a.block.split (Text.expandTabs source)).2 = block at hline hblock
  generalize (b.block.split (Text.expandTabs source')).2 = block' at hline' hblock
  have hbegun : Beside V.table (a.begun block text) (b.begun block' text') :=
    ⟨hblock, h.symbols, h.image, h.imageEnd, h.nextPc, h.lastPc, h.scope⟩
  have hsound : V.Sound (a.begun block text).lineNumber (b.begun block' text').lineNumber := hV
  obtain ⟨label, effect, effect', a', b', hread, hread', heffect, h'⟩ |
    ⟨f, f', a', b', hread, hread', hfault, h'⟩ := read_varied hsound hwords hbegun hQ a.nextPc
  · -- Effects that show the same are carried out alike and leave the same record.
    have hlines : a'.lines = a.lines := ((keeps_read _ _).of_ok hread).lines
    have hlines' : b'.lines = b.lines := ((keeps_read _ _).of_ok hread').lines
    obtain ⟨houtcome, hlinePc⟩ : effect'.outcome = effect.outcome ∧
        effect'.linePc a.nextPc = effect.linePc a.nextPc := by
      obtain rfl | ⟨mnemonic, mnemonic', e, rfl, rfl⟩ := Effect.cases_of_mapText heffect
      · exact ⟨rfl, rfl⟩
      · exact ⟨rfl, rfl⟩
    rw [← h.nextPc] at hread'
    rw [assembleWords_of_ok source hread] at hline
    rw [assembleWords_of_ok source' hread'] at hline'
    refine .effect (effect.linePc a.nextPc) effect ?_ ?_ ?_
    · rw [hline, keep, lines_commit, hlines]
      rfl
    · rw [hline', keep, lines_commit, hlines', ← hlinePc, ← houtcome, ← h.nextPc]
      rfl
    · rw [hline, hline']
      show Beside V.table _ (Assembly.keep (b'.commit b.nextPc label effect') _)
      rw [h.nextPc]
      exact keep_beside (commit_beside hQ h' a.nextPc label heffect) _ _
  · -- Both are refused, and the tables are related as the variation says of tables behind a fault.
    have hlines : a'.lines = a.lines := ((keeps_read _ _).of_error hread).lines
    have hlines' : b'.lines = b.lines := ((keeps_read _ _).of_error hread').lines
    rw [← h.nextPc] at hread'
    rw [assembleWords_of_error source hread] at hline
    rw [assembleWords_of_error source' hread'] at hline'
    refine .fault a.nextPc f f' ?_ ?_ hfault ?_
    · rw [hline, keep, note, hlines]
      rfl
    · rw [hline', keep, note, hlines', ← h.nextPc]
      rfl
    · rw [hline, hline']
      refine keep_beside ?_ _ _
      exact ⟨h'.block, h'.symbols, h'.image, h'.imageEnd, h'.nextPc, h'.lastPc, h'.scope⟩

/-- The records that two passes add for a line. -/
inductive RecordedAlike (φ : Nat → Nat) (a b : Assembly) (source source' : String) : Prop where
  | none (unrecorded : (a.line source).lines = a.lines)
      (unrecorded' : (b.line source').lines = b.lines)
  | same (pc : Long) (outcome : Outcome)
      (recorded : (a.line source).lines = a.lines.push
        { number := a.lineNumber + 1, pc, source, words := a.nextWords source, outcome })
      (recorded' : (b.line source').lines = b.lines.push
        { number := b.lineNumber + 1, pc, source := source', words := b.nextWords source',
          outcome := outcome.renumber φ })

/-- Two passes that are beside each other before a line with the same words are so behind it, and
record the same. -/
theorem line_beside (h : Beside Q a b)
    (hQ : SymbolTable.Tracked Q φ (a.lineNumber + 1) (b.lineNumber + 1)) {source source' : String}
    (hblock : (b.block.split (Text.expandTabs source')).2 =
      (a.block.split (Text.expandTabs source)).2)
    (hnone : a.nextWords source = [] ↔ b.nextWords source' = [])
    (hwords : List.Forall₂ Word.SameSpelling (Word.code (a.nextWords source))
      (Word.code (b.nextWords source'))) :
    Beside Q (a.line source) (b.line source') ∧ RecordedAlike φ a b source source' := by
  have hV : (Variation.columns Q).Sound (a.lineNumber + 1) (b.lineNumber + 1) :=
    Variation.sound_columns hQ.toCoupled
  cases line_varied h hV hQ hblock hnone hwords with
  | none hlines hlines' hbeside => exact ⟨hbeside, .none hlines hlines'⟩
  | effect pc effect hlines hlines' hbeside =>
    refine ⟨hbeside, .same pc effect.outcome hlines ?_⟩
    rw [effect.renumber_outcome]
    exact hlines'
  | fault pc f f' hlines hlines' hfault hbeside =>
    refine ⟨hbeside, .same pc (.fault f) hlines ?_⟩
    have hfault : (f.renumber φ).mapText id = f'.mapText id := hfault
    rw [Fault.mapText_id, Fault.mapText_id] at hfault
    rw [Outcome.renumber, hfault]
    exact hlines'

end

end Assembly

end PropellerAsm
