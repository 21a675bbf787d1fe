import PropellerAsm.Proofs.Assembly.Mentions

/-!
# Cross references

The history of a pass is the list of what its lines mention.  The symbol table is the history read
by name: a symbol has a value if and only if some line has its name for a label, this line stands
first among its references, and behind it stand the lines that use the name, in order and each as
often as it does.  From the line on that binds a name, value and line of its definition stay, so
that a later fault about a redefinition tells both.
-/
namespace PropellerAsm

theorem Symbol.used_zero (s : Symbol) (line : Nat) : s.used line 0 = s := by
  rw [Symbol.used, List.replicate_zero, List.append_nil]

theorem Symbol.isDefined_of_definition? {s : Symbol} {line : Nat}
    (h : s.definition? = some line) : s.isDefined = true := by
  unfold definition? at h
  split at h
  · assumption
  · cases h

namespace Assembly

open SymbolTable (Extended)

/-! ## Histories -/

/-- The lines that use a name, each as often as it does; lines are counted from one. -/
def useLines (history : List Mentions) (name : String) : List Nat :=
  (history.zipIdx 1).flatMap fun (m, line) => List.replicate (m.uses.count name) line

theorem useLines_concat (history : List Mentions) (m : Mentions) (name : String) :
    useLines (history ++ [m]) name =
      useLines history name ++ List.replicate (m.uses.count name) (history.length + 1) := by
  rw [useLines, useLines, List.zipIdx_append, List.flatMap_append, List.zipIdx_singleton,
    List.flatMap_singleton, Nat.add_comm]

/-- A line that does not use the name makes no difference. -/
theorem useLines_concat_of_count {m : Mentions} {name : String} (h : m.uses.count name = 0)
    (history : List Mentions) : useLines (history ++ [m]) name = useLines history name := by
  rw [useLines_concat, h, List.replicate_zero, List.append_nil]

theorem le_of_mem_useLines {history : List Mentions} {name : String} {line : Nat}
    (h : line ∈ useLines history name) : line ≤ history.length := by
  obtain ⟨⟨m, number⟩, hmem, hline⟩ := List.mem_flatMap.mp h
  obtain rfl := List.eq_of_mem_replicate hline
  have hlt := List.snd_lt_add_of_mem_zipIdx hmem
  omega

/-- Uses are listed in the order of their lines. -/
theorem useLines_ordered (history : List Mentions) (name : String) :
    (useLines history name).Pairwise (· ≤ ·) := by
  induction history using List.reverseRecOn with
  | nil => exact List.Pairwise.nil
  | append_singleton history m ih =>
    rw [useLines_concat, List.pairwise_append]
    refine ⟨ih, List.pairwise_replicate.mpr (.inr (Nat.le_refl _)), ?_⟩
    intro line hline line' hline'
    obtain rfl := List.eq_of_mem_replicate hline'
    have hle := le_of_mem_useLines hline
    omega

theorem getElem?_concat {history : List Mentions} {i : Nat} {m : Mentions}
    (h : history[i]? = some m) (last : Mentions) : (history ++ [last])[i]? = some m := by
  rw [List.getElem?_append_left (List.getElem?_eq_some_iff.mp h).1]
  exact h

/-! ## The table and its history -/

/-- The references of a symbol are those of its name in the history. -/
def Listed (history : List Mentions) (name : String) (s : Symbol) : Prop :=
  (s.isDefined = true ∧ ∃ i m, history[i]? = some m ∧ m.label = some name ∧
      s.references = (i + 1) :: useLines history name) ∨
    (s.isDefined = false ∧ s.references = useLines history name ∧ s.references ≠ [])

theorem Listed.references_ne_nil {history : List Mentions} {name : String} {s : Symbol}
    (h : Listed history name s) : s.references ≠ [] := by
  obtain ⟨-, i, m, -, -, hreferences⟩ | ⟨-, -, hne⟩ := h
  · rw [hreferences]
    exact List.cons_ne_nil _ _
  · exact hne

/-- The next line may use the name. -/
theorem Listed.used {history : List Mentions} {name : String} {s : Symbol}
    (h : Listed history name s) (m : Mentions) :
    Listed (history ++ [m]) name (s.used (history.length + 1) (m.uses.count name)) := by
  obtain ⟨hdefined, i, m', hi, hlabel, hreferences⟩ | ⟨hundefined, hreferences, hne⟩ := h
  · refine .inl ⟨hdefined, i, m', getElem?_concat hi m, hlabel, ?_⟩
    rw [Symbol.used, hreferences, useLines_concat, List.cons_append]
  · refine .inr ⟨hundefined, ?_, List.append_ne_nil_of_left_ne_nil hne _⟩
    rw [Symbol.used, hreferences, useLines_concat]

/-- The symbols tell the same as the history. -/
structure Traced (history : List Mentions) (t : SymbolTable) : Prop where
  symbols : ∀ name s, t.get? name = some s → Listed history name s
  absent : ∀ name, t.get? name = none → useLines history name = []
  /-- No two lines bind the same name. -/
  labels : ∀ i m name, history[i]? = some m → m.label = some name →
    ∃ s, t.get? name = some s ∧ s.definition? = some (i + 1)

/-- A name without a value has uses only. -/
theorem Traced.references_of_free {history : List Mentions} {t : SymbolTable}
    (h : Traced history t) {name : String} (hfree : (t.symbolOf name).isDefined = false) :
    (t.symbolOf name).references = useLines history name := by
  cases hget : t.get? name with
  | none =>
    rw [SymbolTable.symbolOf, hget, h.absent name hget]
    rfl
  | some s =>
    have hsymbol : t.symbolOf name = s := by
      rw [SymbolTable.symbolOf, hget]
      rfl
    rw [hsymbol] at hfree ⊢
    obtain ⟨hdefined, -⟩ | ⟨-, hreferences, -⟩ := h.symbols name s hget
    · rw [hdefined] at hfree
      cases hfree
    · exact hreferences

/-- Symbols with a value keep it, and keep the line of their definition. -/
def DefinitionsKept (t t' : SymbolTable) : Prop :=
  ∀ name s, t.get? name = some s → s.isDefined = true →
    ∃ s', t'.get? name = some s' ∧ s'.value = s.value ∧ s'.definition? = s.definition?

theorem DefinitionsKept.trans {t t₁ t' : SymbolTable} (h : DefinitionsKept t t₁)
    (h' : DefinitionsKept t₁ t') : DefinitionsKept t t' := by
  intro name s hget hdefined
  obtain ⟨s₁, hget₁, hvalue₁, hdefinition₁⟩ := h name s hget hdefined
  have hdefined₁ : s₁.isDefined = true := by
    rw [Symbol.isDefined, hvalue₁]
    exact hdefined
  obtain ⟨s₂, hget₂, hvalue₂, hdefinition₂⟩ := h' name s₁ hget₁ hdefined₁
  exact ⟨s₂, hget₂, hvalue₂.trans hvalue₁, hdefinition₂.trans hdefinition₁⟩

theorem Traced.definitionsKept {history : List Mentions} {t t' : SymbolTable}
    (h : Traced history t) {line : Nat} {value : Value} {label : Option String}
    {uses : List String} (hextended : Extended line value label uses t t') :
    DefinitionsKept t t' :=
  fun name s hget hdefined =>
    hextended.defined hget hdefined (h.symbols name s hget).references_ne_nil

/-- What a line mentions is added to the history and to the table alike. -/
theorem Traced.extended {history : List Mentions} {t t' : SymbolTable} (h : Traced history t)
    {m : Mentions} {value : Value} (hvalue : value.isDefined = true)
    (hextended : Extended (history.length + 1) value m.label m.uses t t') :
    Traced (history ++ [m]) t' where
  symbols := by
    intro name s hget
    rw [hextended.symbols] at hget
    split at hget
    · -- The label comes first, before the uses of earlier lines and of its own.
      rename_i hlabel
      obtain rfl := Option.some.inj hget
      refine .inl ⟨hvalue, history.length, m, List.getElem?_concat_length, hlabel, ?_⟩
      rw [Symbol.used, Symbol.bound, h.references_of_free (hextended.free name hlabel),
        useLines_concat, List.cons_append]
    · split at hget
      · rename_i hcount
        have hlisted := (h.symbols name s hget).used m
        rw [hcount, Symbol.used_zero] at hlisted
        exact hlisted
      · rename_i hcount
        obtain rfl := Option.some.inj hget
        cases hold : t.get? name with
        | none =>
          rw [SymbolTable.symbolOf, hold, Option.getD_none]
          refine .inr ⟨rfl, ?_, ?_⟩
          · rw [useLines_concat, h.absent name hold]
            rfl
          · show [] ++ List.replicate _ _ ≠ []
            rw [List.nil_append, ne_eq, List.replicate_eq_nil_iff]
            exact hcount
        | some old =>
          rw [SymbolTable.symbolOf, hold, Option.getD_some]
          exact (h.symbols name old hold).used m
  absent := by
    intro name hget
    rw [hextended.symbols] at hget
    split at hget
    · cases hget
    · split at hget
      · rename_i hcount
        rw [useLines_concat_of_count hcount]
        exact h.absent name hget
      · cases hget
  labels := by
    intro i m' name hi hlabel
    -- An earlier label keeps its definition; the new one has just been bound.
    rcases Nat.lt_or_ge i history.length with hlt | hge
    · rw [List.getElem?_append_left hlt] at hi
      obtain ⟨s, hget, hdefinition⟩ := h.labels i m' name hi hlabel
      obtain ⟨s', hget', -, hsame⟩ :=
        h.definitionsKept hextended name s hget (Symbol.isDefined_of_definition? hdefinition)
      exact ⟨s', hget', hsame.trans hdefinition⟩
    · have hlength := (List.getElem?_eq_some_iff.mp hi).1
      rw [List.length_append, List.length_singleton] at hlength
      obtain rfl : i = history.length := by omega
      rw [List.getElem?_concat_length] at hi
      obtain rfl := Option.some.inj hi
      refine ⟨_, by rw [hextended.symbols, if_pos hlabel], ?_⟩
      show (if value.isDefined then _ else _) = _
      rw [if_pos hvalue]
      rfl

/-! ## Passes -/

/-- A record that tells of a redefinition tells the line and the value of an earlier definition. -/
def RedefinitionsTold (a : Assembly) : Prop :=
  ∀ record ∈ a.lines.toList, ∀ name line value,
    record.outcome = .fault (.redefinition name line value) →
      line < record.number ∧ ∃ s, a.symbols.get? name = some s ∧ s.definition? = some line ∧
        s.value.toQuad = value

/-- What holds between lines, with the history so far. -/
structure CrossReferenced (history : List Mentions) (a : Assembly) : Prop where
  counted : history.length = a.lineNumber
  traced : Traced history a.symbols
  told : RedefinitionsTold a

theorem crossReferenced_clear (a : Assembly) : CrossReferenced [] a.clear where
  counted := rfl
  traced := by
    refine ⟨?_, fun _ _ => rfl, ?_⟩
    · intro name s h
      simp [clear, SymbolTable.get?] at h
    · intro i m name h
      cases h
  told := by
    intro record h
    cases h

/-- The line that defines a symbol is one of the lines so far. -/
theorem CrossReferenced.definition_le {history : List Mentions} {a : Assembly}
    (h : CrossReferenced history a) {name : String} {s : Symbol}
    (hget : a.symbols.get? name = some s) (hdefined : s.isDefined = true) :
    ∃ line, s.definition? = some line ∧ line ≤ a.lineNumber := by
  obtain ⟨-, i, m, hi, -, hreferences⟩ | ⟨hundefined, -⟩ := h.traced.symbols name s hget
  · refine ⟨i + 1, ?_, ?_⟩
    · rw [Symbol.definition?, if_pos hdefined, hreferences]
      rfl
    · have hlt := (List.getElem?_eq_some_iff.mp hi).1
      have hcounted := h.counted
      omega
  · rw [hdefined] at hundefined
    cases hundefined

/-- A line adds its mentions to the history, and leaves definitions as they are. -/
theorem CrossReferenced.line {history : List Mentions} {a : Assembly}
    (h : CrossReferenced history a) (source : String) :
    ∃ m : Mentions, m.WrittenIn a source ∧ CrossReferenced (history ++ [m]) (a.line source) ∧
      DefinitionsKept a.symbols (a.line source).symbols := by
  obtain ⟨m, value, hvalue, hwritten, hextended⟩ := a.exists_mentions source
  rw [← h.counted] at hextended
  have hkept := h.traced.definitionsKept hextended
  refine ⟨m, hwritten, ⟨?_, h.traced.extended hvalue hextended, ?_⟩, hkept⟩
  · rw [List.length_append, List.length_singleton, lineNumber_line, h.counted]
  -- What the records so far tell stays true, as definitions do.
  have hold : ∀ record ∈ a.lines.toList, ∀ name line value,
      record.outcome = .fault (.redefinition name line value) →
        line < record.number ∧ ∃ s, (a.line source).symbols.get? name = some s ∧
          s.definition? = some line ∧ s.value.toQuad = value := by
    intro record hrecord name line value houtcome
    obtain ⟨hlt, s, hget, hdefinition, htold⟩ := h.told record hrecord name line value houtcome
    obtain ⟨s', hget', hvalue', hdefinition'⟩ :=
      hkept name s hget (Symbol.isDefined_of_definition? hdefinition)
    refine ⟨hlt, s', hget', hdefinition'.trans hdefinition, ?_⟩
    rw [hvalue']
    exact htold
  obtain hlines | ⟨added, hnumber, hlines, htold⟩ := a.redefinition_line source
  · intro record hrecord
    rw [hlines] at hrecord
    exact hold record hrecord
  · intro record hrecord name line value houtcome
    rw [hlines, Array.toList_push] at hrecord
    rcases List.mem_append.mp hrecord with hrecord | hrecord
    · exact hold record hrecord name line value houtcome
    · obtain rfl := List.mem_singleton.mp hrecord
      obtain ⟨s, hget, hdefined, rfl, rfl⟩ := htold name line value houtcome
      obtain ⟨first, hdefinition, hle⟩ := h.definition_le hget hdefined
      obtain ⟨s', hget', hvalue', hdefinition'⟩ := hkept name s hget hdefined
      rw [hdefinition, Option.getD_some]
      refine ⟨by omega, s', hget', hdefinition'.trans hdefinition, ?_⟩
      rw [hvalue']

/-- Lines add their mentions to the history one by one. -/
theorem crossReferenced_foldl (sources : List String) {history : List Mentions} {a : Assembly}
    (h : CrossReferenced history a) :
    ∃ added : List Mentions, CrossReferenced (history ++ added) (sources.foldl line a) ∧
      added.length = sources.length ∧
      (∀ i source (m : Mentions), sources[i]? = some source → added[i]? = some m →
        m.WrittenIn ((sources.take i).foldl line a) source) ∧
      DefinitionsKept a.symbols (sources.foldl line a).symbols := by
  induction sources generalizing history a with
  | nil =>
    refine ⟨[], ?_, rfl, ?_, fun name s hget _ => ⟨s, hget, rfl, rfl⟩⟩
    · rw [List.append_nil]
      exact h
    · intro i source m hsource
      cases hsource
  | cons first sources ih =>
    obtain ⟨m, hwritten, hline, hkept⟩ := h.line first
    obtain ⟨added, hrest, hlength, hall, hkept'⟩ := ih hline
    rw [List.append_assoc] at hrest
    refine ⟨m :: added, hrest, ?_, ?_, hkept.trans hkept'⟩
    · rw [List.length_cons, List.length_cons, hlength]
    · intro i source m' hsource hm
      cases i with
      | zero =>
        obtain rfl := Option.some.inj hsource
        obtain rfl := Option.some.inj hm
        exact hwritten
      | succ i => exact hall i source m' hsource hm

/-- In every pass, whatever is defined after some of the lines has the same value and the same line
of definition at the end.  Each line mentions what is written in it, and the references of a symbol
are the line that defines it, which is the one that has it for a label, and the lines that use it,
in order; a symbol without a definition has uses, and a name that is not in the table has none.  A
record that tells of a redefinition tells the line and the value of an earlier definition. -/
theorem symbols_bound_once_and_cross_referenced (a : Assembly) (sources : List String) :
    (∀ n name s, ((sources.take n).foldl line a.clear).symbols.get? name = some s →
      s.isDefined = true →
        ∃ s', (sources.foldl line a.clear).symbols.get? name = some s' ∧ s'.value = s.value ∧
          s'.definition? = s.definition?) ∧
    (∃ history : List Mentions, history.length = sources.length ∧
      (∀ i source (m : Mentions), sources[i]? = some source → history[i]? = some m →
        m.WrittenIn ((sources.take i).foldl line a.clear) source) ∧
      ∀ name, (useLines history name).Pairwise (· ≤ ·) ∧
        ((sources.foldl line a.clear).symbols.get? name = none → useLines history name = []) ∧
        ∀ s, (sources.foldl line a.clear).symbols.get? name = some s →
          (s.isDefined = true → ∃ i m, history[i]? = some m ∧ m.label = some name ∧
            s.definition? = some (i + 1) ∧ s.references = (i + 1) :: useLines history name) ∧
          (s.isDefined = false → s.references = useLines history name ∧ s.references ≠ [])) ∧
    ∀ record ∈ (sources.foldl line a.clear).lines.toList, ∀ name line value,
      record.outcome = .fault (.redefinition name line value) →
        line < record.number ∧
          ∃ s, (sources.foldl Assembly.line a.clear).symbols.get? name = some s ∧
            s.definition? = some line ∧ s.value.toQuad = value := by
  obtain ⟨history, hcross, hlength, hwritten, -⟩ :=
    crossReferenced_foldl sources (crossReferenced_clear a)
  rw [List.nil_append] at hcross
  refine ⟨?_, ⟨history, hlength, hwritten, ?_⟩, hcross.told⟩
  · -- The pass goes on from the state behind the first lines, and keeps what is defined there.
    intro n name s hget hdefined
    obtain ⟨before, hbefore, -⟩ := crossReferenced_foldl (sources.take n) (crossReferenced_clear a)
    obtain ⟨-, -, -, -, hkept⟩ := crossReferenced_foldl (sources.drop n) hbefore
    rw [← List.foldl_append, List.take_append_drop] at hkept
    exact hkept name s hget hdefined
  · intro name
    refine ⟨useLines_ordered history name, hcross.traced.absent name, ?_⟩
    intro s hget
    have hlisted := hcross.traced.symbols name s hget
    constructor
    · intro hdefined
      obtain ⟨-, i, m, hi, hlabel, hreferences⟩ | ⟨hundefined, -⟩ := hlisted
      · refine ⟨i, m, hi, hlabel, ?_, hreferences⟩
        rw [Symbol.definition?, if_pos hdefined, hreferences]
        rfl
      · rw [hdefined] at hundefined
        cases hundefined
    · intro hundefined
      obtain ⟨hdefined, -⟩ | ⟨-, hreferences⟩ := hlisted
      · rw [hundefined] at hdefined
        cases hdefined
      · exact hreferences

end Assembly

end PropellerAsm
