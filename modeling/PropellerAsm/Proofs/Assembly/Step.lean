import PropellerAsm.Assembly
import PropellerAsm.Proofs.Computation

/-!
# One line of a pass

What a pass does with a source line, told apart once: a line without words only counts; a line with
words is read, which touches the symbols, the scope and the log and nothing else; and then either
its effect is carried out, or its fault is recorded.  Code and data are stored, which touches the
image, its end, the next program counter and the log and nothing else.
-/
namespace PropellerAsm.Assembly

/-! ## Reading the words of a line -/

/-- Nothing differs but the symbols, the scope and the log. -/
structure SameOutput (a b : Assembly) : Prop where
  image : b.image = a.image
  imageEnd : b.imageEnd = a.imageEnd
  lines : b.lines = a.lines
  readFaults : b.readFaults = a.readFaults
  lineNumber : b.lineNumber = a.lineNumber
  nextPc : b.nextPc = a.nextPc
  lastPc : b.lastPc = a.lastPc

theorem SameOutput.refl (a : Assembly) : SameOutput a a :=
  ⟨rfl, rfl, rfl, rfl, rfl, rfl, rfl⟩

instance : IsPreorder Assembly SameOutput where
  refl := SameOutput.refl
  trans _ _ _ h h' :=
    ⟨h'.image.trans h.image, h'.imageEnd.trans h.imageEnd, h'.lines.trans h.lines,
      h'.readFaults.trans h.readFaults, h'.lineNumber.trans h.lineNumber,
      h'.nextPc.trans h.nextPc, h'.lastPc.trans h.lastPc⟩

theorem keeps_bindLabel (pc : Long) (text : String) : Keeps SameOutput (bindLabel pc text) := by
  intro a
  unfold bindLabel
  split
  · dsimp only
    -- Whether the label is local, and whether it is free.
    split
    · split
      · exact ⟨rfl, rfl, rfl, rfl, rfl, rfl, rfl⟩
      · exact ⟨rfl, rfl, rfl, rfl, rfl, rfl, rfl⟩
    · split
      · exact ⟨rfl, rfl, rfl, rfl, rfl, rfl, rfl⟩
      · exact ⟨rfl, rfl, rfl, rfl, rfl, rfl, rfl⟩
  · exact SameOutput.refl a

theorem keeps_takeLabel (pc : Long) (words : List Word) :
    Keeps SameOutput (takeLabel pc words) := by
  cases words with
  | nil => exact keeps_pure _
  | cons word rest =>
    rw [takeLabel]
    split
    · exact keeps_bind (keeps_bindLabel pc word.text) fun name => keeps_pure _
    · exact keeps_pure _

theorem keeps_evaluate {α : Type} (m : Evaluator α) : Keeps SameOutput (evaluate m) := by
  intro a
  unfold evaluate
  cases m a.symbols with
  | ok x symbols => exact ⟨rfl, rfl, rfl, rfl, rfl, rfl, rfl⟩
  | error f symbols => exact ⟨rfl, rfl, rfl, rfl, rfl, rfl, rfl⟩

theorem keeps_read (pc : Long) (words : List Word) : Keeps SameOutput (read pc words) := by
  refine keeps_bind (keeps_takeLabel pc words) ?_
  rintro ⟨label, rest⟩
  refine keeps_bind keeps_get fun a => ?_
  exact keeps_bind (keeps_evaluate _) fun effect => keeps_pure _

/-- The words behind a label. -/
def unlabelled : List Word → List Word
  | [] => []
  | word :: rest => if word.token = .plain then rest else word :: rest

/-- The words behind a label stand on the line. -/
theorem mem_of_mem_unlabelled {words : List Word} {word : Word} (h : word ∈ unlabelled words) :
    word ∈ words := by
  cases words with
  | nil => cases h
  | cons first rest =>
    rw [unlabelled] at h
    split at h
    · exact List.mem_cons_of_mem _ h
    · exact h

/-- A first word that is plain is a label, which is bound or refused. -/
theorem takeLabel_cases (pc : Long) (words : List Word) (a : Assembly) :
    (∃ word rest, words = word :: rest ∧ word.token = .plain ∧
      ((∃ name b, bindLabel pc word.text a = .ok name b ∧
          takeLabel pc words a = .ok (some name, unlabelled words) b) ∨
        (∃ f b, bindLabel pc word.text a = .error f b ∧
          takeLabel pc words a = .error f b))) ∨
    ((∀ word, words.head? = some word → word.token ≠ .plain) ∧
      takeLabel pc words a = .ok (none, unlabelled words) a) := by
  cases words with
  | nil =>
    right
    refine ⟨?_, rfl⟩
    intro word h
    cases h
  | cons word rest =>
    rw [takeLabel, unlabelled]
    by_cases hplain : word.token = .plain
    · left
      refine ⟨word, rest, rfl, hplain, ?_⟩
      rw [if_pos hplain, if_pos hplain]
      cases hbind : bindLabel pc word.text a with
      | ok name b => exact .inl ⟨name, b, rfl, bind_of_ok hbind⟩
      | error f b => exact .inr ⟨f, b, rfl, bind_of_error hbind⟩
    · right
      rw [if_neg hplain, if_neg hplain]
      refine ⟨?_, rfl⟩
      intro first h
      obtain rfl := Option.some.inj h
      exact hplain

/-- Words are refused at their label, or it is taken and the rest is evaluated. -/
theorem read_cases (pc : Long) (words : List Word) (a : Assembly) :
    (∃ f b, takeLabel pc words a = .error f b ∧ read pc words a = .error f b) ∨
    (∃ label a₁, takeLabel pc words a = .ok (label, unlabelled words) a₁ ∧
      ((∃ effect symbols,
          Statement.effect { scope := a₁.scope, line := a₁.lineNumber, pc } label.isSome
            (unlabelled words) a₁.symbols = .ok effect symbols ∧
          read pc words a = .ok (label, effect) { a₁ with symbols }) ∨
        (∃ f symbols,
          Statement.effect { scope := a₁.scope, line := a₁.lineNumber, pc } label.isSome
            (unlabelled words) a₁.symbols = .error f symbols ∧
          read pc words a = .error f { a₁ with symbols }))) := by
  -- With a label or without one, the rest is decided by the statement.
  have htaken : ∀ label a₁, takeLabel pc words a = .ok (label, unlabelled words) a₁ →
      ((∃ effect symbols,
          Statement.effect { scope := a₁.scope, line := a₁.lineNumber, pc } label.isSome
            (unlabelled words) a₁.symbols = .ok effect symbols ∧
          read pc words a = .ok (label, effect) { a₁ with symbols }) ∨
        (∃ f symbols,
          Statement.effect { scope := a₁.scope, line := a₁.lineNumber, pc } label.isSome
            (unlabelled words) a₁.symbols = .error f symbols ∧
          read pc words a = .error f { a₁ with symbols })) := by
    intro label a₁ hlabel
    have hget : (get : Assembler Assembly) a₁ = .ok a₁ a₁ := rfl
    unfold read
    rw [bind_of_ok hlabel]
    dsimp only
    rw [bind_of_ok hget]
    cases heffect : Statement.effect { scope := a₁.scope, line := a₁.lineNumber, pc } label.isSome
        (unlabelled words) a₁.symbols with
    | ok effect symbols =>
      left
      have hevaluate : evaluate (Statement.effect { scope := a₁.scope, line := a₁.lineNumber, pc }
          label.isSome (unlabelled words)) a₁ = .ok effect { a₁ with symbols } := by
        rw [evaluate, heffect]
      exact ⟨effect, symbols, rfl, bind_of_ok hevaluate⟩
    | error f symbols =>
      right
      have hevaluate : evaluate (Statement.effect { scope := a₁.scope, line := a₁.lineNumber, pc }
          label.isSome (unlabelled words)) a₁ = .error f { a₁ with symbols } := by
        rw [evaluate, heffect]
      exact ⟨f, symbols, rfl, bind_of_error hevaluate⟩
  obtain ⟨word, rest, -, -, ⟨name, b, -, hlabel⟩ | ⟨f, b, -, hlabel⟩⟩ | ⟨-, hlabel⟩ :=
    takeLabel_cases pc words a
  · exact .inr ⟨some name, b, hlabel, htaken _ _ hlabel⟩
  · exact .inl ⟨f, b, hlabel, bind_of_error hlabel⟩
  · exact .inr ⟨none, a, hlabel, htaken _ _ hlabel⟩

/-- Words without a fault have their label taken, and the rest of them has an effect. -/
theorem effect_of_read {pc : Long} {words : List Word} {a b : Assembly} {label : Option String}
    {effect : Effect} (h : read pc words a = .ok (label, effect) b) :
    ∃ a₁, takeLabel pc words a = .ok (label, unlabelled words) a₁ ∧
      Statement.effect { scope := a₁.scope, line := a₁.lineNumber, pc } label.isSome
        (unlabelled words) a₁.symbols = .ok effect b.symbols ∧ b.scope = a₁.scope := by
  obtain ⟨f, b', -, hread⟩ | ⟨label', a₁, hlabel, ⟨effect', symbols, heffect, hread⟩ |
    ⟨f, symbols, -, hread⟩⟩ := read_cases pc words a
  · rw [h] at hread
    cases hread
  · rw [h] at hread
    obtain ⟨hresult, rfl⟩ := EStateM.Result.ok.inj hread
    obtain ⟨rfl, rfl⟩ := Prod.mk.inj hresult
    exact ⟨a₁, hlabel, heffect, rfl⟩
  · rw [h] at hread
    cases hread

/-! ## Storing -/

/-- Nothing differs but the image, its end, the next program counter and the log. -/
structure OnlyStored (a b : Assembly) : Prop where
  block : b.block = a.block
  symbols : b.symbols = a.symbols
  lines : b.lines = a.lines
  readFaults : b.readFaults = a.readFaults
  lineNumber : b.lineNumber = a.lineNumber
  lastPc : b.lastPc = a.lastPc
  scope : b.scope = a.scope

theorem OnlyStored.trans {a b c : Assembly} (h : OnlyStored a b) (h' : OnlyStored b c) :
    OnlyStored a c :=
  ⟨h'.block.trans h.block, h'.symbols.trans h.symbols, h'.lines.trans h.lines,
    h'.readFaults.trans h.readFaults, h'.lineNumber.trans h.lineNumber, h'.lastPc.trans h.lastPc,
    h'.scope.trans h.scope⟩

theorem OnlyStored.diagnostics {a b : Assembly} (h : OnlyStored a b) :
    b.diagnostics = a.diagnostics := by
  unfold Assembly.diagnostics
  rw [h.readFaults, h.lines]

theorem onlyStored_store (a : Assembly) (addr : Nat) (bytes : List UInt8) :
    OnlyStored a (a.store addr bytes) := by
  unfold store
  split
  · exact ⟨rfl, rfl, rfl, rfl, rfl, rfl, rfl⟩
  · exact ⟨rfl, rfl, rfl, rfl, rfl, rfl, rfl⟩

theorem onlyStored_storeLongs (a : Assembly) (pc : Long) (longs : List Long) :
    OnlyStored a (a.storeLongs pc longs) := by
  induction longs generalizing a pc with
  | nil => exact ⟨rfl, rfl, rfl, rfl, rfl, rfl, rfl⟩
  | cons long longs ih => exact (a.onlyStored_store _ _).trans (ih _ _)

theorem onlyStored_code (a : Assembly) (pc : Long) (label : Option String) (mnemonic : String)
    (e : Encoded) : OnlyStored a (a.commit pc label (.code mnemonic e)) := by
  have hnote : OnlyStored a (a.note (.encoded a.lineNumber mnemonic e.longs)) :=
    ⟨rfl, rfl, rfl, rfl, rfl, rfl, rfl⟩
  exact hnote.trans (onlyStored_storeLongs _ pc e.longs)

theorem onlyStored_data (a : Assembly) (pc : Long) (label : Option String) (bytes : List UInt8) :
    OnlyStored a (a.commit pc label (.data bytes)) := by
  have hnext : ∀ b : Assembly, OnlyStored b { b with nextPc := Address.step pc bytes.length } :=
    fun b => ⟨rfl, rfl, rfl, rfl, rfl, rfl, rfl⟩
  unfold commit
  dsimp only
  split
  · exact hnext a
  · exact (a.onlyStored_store _ _).trans (hnext _)

/-! ## The two ends of a line -/

/-- The state in which the words of the next line are read. -/
def begun (a : Assembly) (block : Block) (text : String) : Assembly :=
  ({ a with lineNumber := a.lineNumber + 1, block } : Assembly).note
    (.started (a.lineNumber + 1) a.nextPc text)

/-- The words of a line have an effect, or a fault. -/
theorem assembleWords_cases (a : Assembly) (source : String) (words : List Word) :
    (∃ label effect b, read a.nextPc (Word.code words) a = .ok (label, effect) b ∧
      a.assembleWords source words = (b.commit a.nextPc label effect).keep
        { number := a.lineNumber, pc := effect.linePc a.nextPc, source, words,
          outcome := effect.outcome }) ∨
    (∃ f b, read a.nextPc (Word.code words) a = .error f b ∧
      a.assembleWords source words = (b.note (.faulty a.lineNumber f)).keep
        { number := a.lineNumber, pc := a.nextPc, source, words, outcome := .fault f }) := by
  unfold assembleWords
  dsimp only
  cases hread : read a.nextPc (Word.code words) a with
  | ok result b =>
    obtain ⟨label, effect⟩ := result
    exact .inl ⟨label, effect, b, rfl, rfl⟩
  | error f b => exact .inr ⟨f, b, rfl, rfl⟩

/-! ## The outcomes of a line -/

/-- The words of the next line; none inside a block comment. -/
def nextWords (a : Assembly) (source : String) : List Word :=
  (a.block.split (Text.expandTabs source)).1.getD []

/-- A line without words only counts, any other is assembled. -/
theorem line_eq (a : Assembly) (source : String) :
    (a.nextWords source = [] ∧ a.line source = { a with
      lineNumber := a.lineNumber + 1, block := (a.block.split (Text.expandTabs source)).2 }) ∨
    (a.nextWords source ≠ [] ∧ ∃ text, a.line source =
      (a.begun (a.block.split (Text.expandTabs source)).2 text).assembleWords source
        (a.nextWords source)) := by
  unfold nextWords line
  dsimp only
  generalize String.ofList (Text.trimRight (Text.expandTabs source).toList) = text
  rcases a.block.split (Text.expandTabs source) with ⟨_ | _ | ⟨word, more⟩, block⟩
  · exact .inl ⟨rfl, rfl⟩
  · exact .inl ⟨rfl, rfl⟩
  · exact .inr ⟨List.cons_ne_nil _ _, text, rfl⟩

/-- A line only counts, or its effect is carried out, or its fault is recorded. -/
theorem line_outcomes (a : Assembly) (source : String) :
    (a.nextWords source = [] ∧
      ∃ block, a.line source = { a with lineNumber := a.lineNumber + 1, block }) ∨
    (∃ block text label effect b,
      read a.nextPc (Word.code (a.nextWords source)) (a.begun block text) =
        .ok (label, effect) b ∧
      a.line source = (b.commit a.nextPc label effect).keep
        { number := a.lineNumber + 1, pc := effect.linePc a.nextPc, source,
          words := a.nextWords source, outcome := effect.outcome }) ∨
    (∃ block text f b,
      read a.nextPc (Word.code (a.nextWords source)) (a.begun block text) = .error f b ∧
      a.line source = (b.note (.faulty (a.lineNumber + 1) f)).keep
        { number := a.lineNumber + 1, pc := a.nextPc, source, words := a.nextWords source,
          outcome := .fault f }) := by
  obtain ⟨hnil, hline⟩ | ⟨-, text, hline⟩ := a.line_eq source
  · exact .inl ⟨hnil, _, hline⟩
  · right
    rw [hline]
    obtain ⟨label, effect, b, hread, hwords⟩ | ⟨f, b, hread, hwords⟩ :=
      (a.begun (a.block.split (Text.expandTabs source)).2 text).assembleWords_cases source
        (a.nextWords source)
    · exact .inl ⟨_, text, label, effect, b, hread, hwords⟩
    · exact .inr ⟨_, text, f, b, hread, hwords⟩

end PropellerAsm.Assembly
