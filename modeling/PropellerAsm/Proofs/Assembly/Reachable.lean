import PropellerAsm.Proofs.Assembly.Replay
import PropellerAsm.Proofs.Assembly.Symbols

/-!
# Reachable states

The states that passes go through, from the first one on: lines are assembled, passes end, new ones
begin, and sources turn out to be unreadable.  In all of them the records tell what the image holds,
the highest program counter is not below the next one, and every symbol has been mentioned.
-/
namespace PropellerAsm

namespace SymbolTable

/-- Every symbol has been mentioned on some line. -/
def Mentioned (t : SymbolTable) : Prop :=
  ∀ name s, t.get? name = some s → s.references ≠ []

theorem mentioned_empty : Mentioned {} := by
  intro name s h
  simp [get?] at h

theorem Mentioned.extended {t t' : SymbolTable} (h : t.Mentioned) {line : Nat} {value : Value}
    {label : Option String} {uses : List String} (hextended : Extended line value label uses t t') :
    t'.Mentioned := by
  intro name s hget
  -- The label has its definition in front, a name in use the line at the end.
  rw [hextended.symbols] at hget
  split at hget
  · obtain rfl := Option.some.inj hget
    exact List.cons_ne_nil _ _
  · split at hget
    · exact h name s hget
    · rename_i hcount
      obtain rfl := Option.some.inj hget
      refine List.append_ne_nil_of_right_ne_nil _ ?_
      rw [ne_eq, List.replicate_eq_nil_iff]
      exact hcount

theorem Mentioned.setValue? {t t' : SymbolTable} (h : t.Mentioned) {name : String} {value : Value}
    (hset : t.setValue? name value = some t') : t'.Mentioned := by
  obtain ⟨s, hs, rfl⟩ := Option.map_eq_some_iff.mp hset
  intro other s' hget
  rw [get?_put] at hget
  split at hget
  · obtain rfl := Option.some.inj hget
    exact h name s hs
  · exact h other s' hget

end SymbolTable

namespace Assembly

theorem mentioned_rebind {a : Assembly} (h : a.symbols.Mentioned) (label : Option String)
    (value : Value) : (a.rebind label value).symbols.Mentioned := by
  cases label with
  | none => exact h
  | some name =>
    unfold rebind
    dsimp only
    cases hset : (a.note (.bound a.lineNumber name value)).symbols.setValue? name value with
    | none => exact h
    | some t => exact SymbolTable.Mentioned.setValue? h hset

theorem mentioned_commit {a : Assembly} (h : a.symbols.Mentioned) (pc : Long)
    (label : Option String) (effect : Effect) :
    (a.commit pc label effect).symbols.Mentioned := by
  -- Only an origin and an assignment touch the symbols, by giving the label another value.
  cases effect with
  | nothing => exact h
  | code mnemonic e =>
    rw [(a.onlyStored_code pc label mnemonic e).symbols]
    exact h
  | data bytes =>
    rw [(a.onlyStored_data pc label bytes).symbols]
    exact h
  | reserve next => exact h
  | origin org =>
    have horg : ({ a with nextPc := org } : Assembly).symbols.Mentioned := h
    exact mentioned_rebind horg label (.addr org)
  | assign value => exact mentioned_rebind h label value

/-! ## The invariant -/

/-- What holds between lines. -/
structure Settled (a : Assembly) : Prop where
  replayed : Replayed a
  nextPc_le : a.nextPc.toNat ≤ a.lastPc.toNat
  mentioned : a.symbols.Mentioned

theorem settled_clear (a : Assembly) : Settled a.clear :=
  ⟨replayed_clear a, Nat.le_refl _, SymbolTable.mentioned_empty⟩

/-- The highest program counter takes in the next one when a record is kept. -/
theorem nextPc_le_keep (a : Assembly) (line : Line) :
    (a.keep line).nextPc.toNat ≤ (a.keep line).lastPc.toNat := by
  show a.nextPc.toNat ≤ (if a.lastPc.toNat < a.nextPc.toNat then a.nextPc else a.lastPc).toNat
  split
  · exact Nat.le_refl _
  · omega

theorem Settled.line {a : Assembly} (h : Settled a) (source : String) :
    Settled (a.line source) := by
  have hreplayed := h.replayed.line source
  have hmentioned : ∀ block text, (endState (read a.nextPc (Word.code (a.nextWords source))
      (a.begun block text))).symbols.Mentioned := by
    intro block text
    have hbegun : (a.begun block text).symbols.Mentioned := h.mentioned
    obtain ⟨_, _, -, hread⟩ :=
      extended_read (a.begun block text) a.nextPc (Word.code (a.nextWords source))
    exact hbegun.extended hread
  obtain ⟨-, block, hline⟩ | ⟨block, text, label, effect, b, hread, hline⟩ |
    ⟨block, text, f, b, hread, hline⟩ := a.line_outcomes source
  all_goals rw [hline] at hreplayed ⊢
  · exact ⟨hreplayed, h.nextPc_le, h.mentioned⟩
  · have hsymbols := hmentioned block text
    rw [hread] at hsymbols
    exact ⟨hreplayed, nextPc_le_keep _ _, mentioned_commit hsymbols _ label effect⟩
  · have hsymbols := hmentioned block text
    rw [hread] at hsymbols
    exact ⟨hreplayed, nextPc_le_keep _ _, hsymbols⟩

/-- The end of a pass adds to the log and nothing else. -/
theorem finish_eq (a : Assembly) : ∃ log, a.finish = { a with log } := by
  have hnotes : ∀ (symbols : List Symbol) (b : Assembly),
      ∃ log, symbols.foldl (fun b s => b.note (.unresolved s)) b = { b with log } := by
    intro symbols
    induction symbols with
    | nil => exact fun b => ⟨b.log, rfl⟩
    | cons s symbols ih => exact fun b => ih (b.note (.unresolved s))
  obtain ⟨log, hlog⟩ := hnotes a.symbols.undefined a
  unfold finish
  rw [hlog]
  exact ⟨_, rfl⟩

/-- The states that passes go through. -/
inductive Reachable : Assembly → Prop where
  | new : Reachable {}
  | line {a} (h : Reachable a) (source : String) : Reachable (a.line source)
  | clear {a} (h : Reachable a) : Reachable a.clear
  | finish {a} (h : Reachable a) : Reachable a.finish
  | refuse {a} (h : Reachable a) (failure : ReadFailure) : Reachable (a.refuse failure)

theorem Reachable.foldl_line {a : Assembly} (h : Reachable a) (sources : List String) :
    Reachable (sources.foldl Assembly.line a) := by
  induction sources generalizing a with
  | nil => exact h
  | cons source sources ih => exact ih (h.line source)

/-- Whole sources are assembled through these states. -/
theorem Reachable.assembleFile {a : Assembly} (h : Reachable a)
    (content : Except ReadFailure (List UInt8)) : Reachable (a.assembleFile content) := by
  cases content with
  | error failure => exact h.refuse failure
  | ok bytes =>
    unfold Assembly.assembleFile
    dsimp only
    cases Utf8.decode? bytes with
    | some source => exact (h.clear.foldl_line _).finish
    | none => exact h.refuse .notUtf8

theorem Reachable.settled {a : Assembly} (h : Reachable a) : Settled a := by
  induction h with
  | new => exact settled_clear {}
  | line _ source ih => exact ih.line source
  | clear _ _ => exact settled_clear _
  | @finish a _ ih =>
    -- The invariant does not look at the log.
    obtain ⟨log, hlog⟩ := a.finish_eq
    rw [hlog]
    exact ⟨⟨ih.replayed.memory, ih.replayed.extent, ih.replayed.ordered, ih.replayed.counted⟩,
      ih.nextPc_le, ih.mentioned⟩
  | @refuse a _ failure _ =>
    have h := settled_clear a
    exact ⟨⟨h.replayed.memory, h.replayed.extent, h.replayed.ordered, h.replayed.counted⟩,
      h.nextPc_le, h.mentioned⟩

end Assembly

end PropellerAsm
