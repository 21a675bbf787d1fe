import Mathlib.Data.List.Sort
import PropellerAsm.Proofs.Assembly.CrossReference
import PropellerAsm.Proofs.Assembly.Lockstep
import PropellerAsm.Proofs.Word.Spacing

/-!
# Lines that are passed over

Blank lines, lines with nothing but a comment and block comments count as lines and do nothing else.
A pass with such lines put in between is beside the pass without them: image, program counters and
symbols are the same, and what differs is the numbers of the lines behind, in the records, in the
references of symbols and in faults about redefinitions.
-/
namespace PropellerAsm

/-! ## Renumbered lines and symbols -/

/-- The number of a line when `added` lines are put in behind the first `before` ones. -/
def Line.shift (before added number : Nat) : Nat :=
  if number ≤ before then number else number + added

/-- The record with its lines moved by `φ`. -/
def Line.renumber (φ : Nat → Nat) (line : Line) : Line :=
  { line with number := φ line.number, outcome := line.outcome.renumber φ }

/-- The symbol with its lines moved by `φ`. -/
def Symbol.renumber (φ : Nat → Nat) (s : Symbol) : Symbol :=
  { s with references := s.references.map φ }

theorem Symbol.renumber_definition? (φ : Nat → Nat) (s : Symbol) :
    (s.renumber φ).definition? = s.definition?.map φ := by
  show (if s.isDefined then (s.references.map φ).head? else none) = _
  unfold Symbol.definition?
  rw [List.head?_map]
  split
  · rfl
  · rfl

namespace SymbolTable

/-- The second table has the symbols of the first one with their lines moved by `φ`. -/
def Renumbered (φ : Nat → Nat) (t t' : SymbolTable) : Prop :=
  ∀ name, t'.get? name = (t.get? name).map (Symbol.renumber φ)

variable {φ : Nat → Nat} {t t' : SymbolTable}

theorem Renumbered.symbolOf (h : Renumbered φ t t') (name : String) :
    t'.symbolOf name = (t.symbolOf name).renumber φ := by
  rw [SymbolTable.symbolOf, SymbolTable.symbolOf, h name]
  cases t.get? name with
  | none => rfl
  | some s => rfl

theorem Renumbered.lookup (h : Renumbered φ t t') (name : String) :
    t'.lookup name = (t.lookup name).renumber φ := by
  rw [SymbolTable.lookup, SymbolTable.lookup, h name]
  cases t.get? name with
  | none => rfl
  | some s => rfl

/-- Tables where a name gets symbols that differ in their lines. -/
theorem Renumbered.update (h : Renumbered φ t t') {u u' : SymbolTable} (name : String) (s : Symbol)
    (hu : ∀ other, u.get? other = if name = other then some s else t.get? other)
    (hu' : ∀ other, u'.get? other =
      if name = other then some (s.renumber φ) else t'.get? other) : Renumbered φ u u' := by
  intro other
  rw [hu, hu']
  by_cases hname : name = other
  · rw [if_pos hname, if_pos hname]
    rfl
  · rw [if_neg hname, if_neg hname]
    exact h other

theorem Renumbered.define? (h : Renumbered φ t t') (name : String) (value : Value) (line : Nat) :
    Option.Rel (Renumbered φ) (t.define? name value line) (t'.define? name value (φ line)) := by
  show Option.Rel (Renumbered φ)
    (if (t.symbolOf name).isDefined then none
      else some ((t.put name ((t.symbolOf name).bound value line)).index line name))
    (if (t'.symbolOf name).isDefined then none
      else some ((t'.put name ((t'.symbolOf name).bound value (φ line))).index (φ line) name))
  rw [h.symbolOf name]
  by_cases hdefined : (t.symbolOf name).isDefined = true
  · have hdefined' : ((t.symbolOf name).renumber φ).isDefined = true := hdefined
    rw [if_pos hdefined, if_pos hdefined']
    exact .none
  · rw [if_neg hdefined,
      if_neg (show ¬ ((t.symbolOf name).renumber φ).isDefined = true from hdefined)]
    refine .some (h.update name ((t.symbolOf name).bound value line) ?_ ?_)
    · intro other
      rw [get?_index, get?_put]
    · intro other
      rw [get?_index, get?_put]
      rfl

/-- Renumbered tables are beside each other. -/
theorem tracked_renumbered (hzero : φ 0 = 0) (line : Nat) :
    Tracked (Renumbered φ) φ line (φ line) where
  value := by
    intro t t' h name
    rw [h.lookup]
    rfl
  use := by
    intro t t' h name
    refine h.update name _ (t.get?_addReference line name) ?_
    intro other
    rw [t'.get?_addReference, h.symbolOf]
    simp [Symbol.used, Symbol.renumber]
  definition := by
    intro t t' h name
    rw [h.lookup, Symbol.renumber_definition?]
    cases (t.lookup name).definition? with
    | none => exact hzero.symm
    | some line => rfl
  define := fun h name value => h.define? name value line
  set := by
    intro t t' h name value
    rw [setValue?, setValue?, h name]
    cases t.get? name with
    | none => exact h
    | some s =>
      exact h.update name _ (fun other => t.get?_put name other _)
        fun other => t'.get?_put name other _

/-- Tables with symbols for the same names list the same names. -/
theorem Renumbered.names (h : Renumbered φ t t') : t'.names = t.names := by
  have hordered : ∀ t : SymbolTable, t.names.Pairwise fun a b => compare a b = .lt :=
    fun t => Std.TreeMap.ordered_keys
  have hmem : ∀ (t : SymbolTable) (name : String), name ∈ t.names ↔ (t.get? name).isSome = true :=
    fun t name => Std.TreeMap.mem_keys.trans Std.TreeMap.mem_iff_isSome_getElem?
  have : Std.Irrefl fun a b : String => compare a b = .lt := ⟨fun a h => by simp at h⟩
  have : Std.Antisymm fun a b : String => compare a b = .lt := by
    refine ⟨fun a b hab hba => ?_⟩
    have hswap : compare a b = (compare b a).swap := Std.OrientedCmp.eq_swap
    rw [hab, hba] at hswap
    cases hswap
  refine List.Pairwise.eq_of_mem_iff (hordered t') (hordered t) fun name => ?_
  rw [hmem, hmem, h name, Option.isSome_map]

end SymbolTable

/-! ## Lines without code -/

namespace Word

/-- A text of blanks has no words. -/
theorem scan_blank {cs : List Char} (h : Text.trimLeft cs = []) (column : Nat) :
    scan column false cs = {} := by
  induction cs generalizing column with
  | nil => rfl
  | cons c cs ih =>
    cases hc : Text.isBlank c with
    | false =>
      rw [Text.trimLeft_cons_of_not_blank hc] at h
      cases h
    | true =>
      rw [Text.trimLeft_cons_of_blank hc] at h
      have hcomma : c ≠ ',' := by rintro rfl; exact absurd hc (by decide)
      rw [scan_separator column (by simp [isSeparator, hc]), ih h]
      simp [Tail.separated, Tail.close, hcomma]

/-- A text whose first character behind the blanks is an apostrophe is a comment. -/
theorem scan_only_comment {cs : List Char} (h : (Text.trimLeft cs).head? = some '\'')
    (column : Nat) : ∃ text column',
      scan column false cs = { words := [Word.comment text column'] } := by
  induction cs generalizing column with
  | nil => cases h
  | cons c cs ih =>
    cases hc : Text.isBlank c with
    | false =>
      rw [Text.trimLeft_cons_of_not_blank hc] at h
      obtain rfl := Option.some.inj h
      exact ⟨_, _, scan_comment column cs⟩
    | true =>
      rw [Text.trimLeft_cons_of_blank hc] at h
      have hcomma : c ≠ ',' := by rintro rfl; exact absurd hc (by decide)
      obtain ⟨text, column', hscan⟩ := ih h (column + 1)
      refine ⟨text, column', ?_⟩
      rw [scan_separator column (by simp [isSeparator, hc]), hscan]
      simp [Tail.separated, Tail.close, hcomma]

end Word

/-- The first character of a line behind its blanks. -/
def firstChar? (source : String) : Option Char :=
  (Text.trimLeft source.toList).head?

theorem firstChar?_expandTabs (source : String) :
    firstChar? (Text.expandTabs source) = firstChar? source := by
  unfold firstChar? Text.expandTabs
  rw [String.toList_ofList, Text.head?_trimLeft_expandFrom]

theorem mem_expandTabs_iff (source : String) :
    '}' ∈ (Text.expandTabs source).toList ↔ '}' ∈ source.toList := by
  unfold Text.expandTabs
  rw [String.toList_ofList]
  exact Text.mem_expandFrom_iff (by decide) (by decide) 0 source.toList

/-- Groups of lines that are passed over. -/
inductive Skippable : List String → Prop where
  | blank {source} (empty : firstChar? source = none) : Skippable [source]
  | comment {source} (apostrophe : firstChar? source = some '\'') : Skippable [source]
  /-- A block comment on one line. -/
  | inline {source} (opens : firstChar? source = some '{') (closes : '}' ∈ source.toList) :
      Skippable [source]
  /-- A block comment up to the first line with a closing brace. -/
  | block {first body last} (opens : firstChar? first = some '{') (stays : '}' ∉ first.toList)
      (inside : ∀ source ∈ body, '}' ∉ source.toList) (closes : '}' ∈ last.toList) :
      Skippable (first :: (body ++ [last]))

namespace Assembly

/-- The pass after `n` more lines that left nothing but records. -/
structure Passed (a b : Assembly) (n : Nat) : Prop where
  beside : Beside Eq a b
  lineNumber : b.lineNumber = a.lineNumber + n
  line? : ∀ number ≤ a.lineNumber, b.line? number = a.line? number

/-- A line without words changes the number of lines, and may open or close a block comment. -/
theorem line_of_split_none {a : Assembly} {source : String} {block : Block}
    (h : a.block.split (Text.expandTabs source) = (none, block)) :
    a.line source = { a with lineNumber := a.lineNumber + 1, block } := by
  unfold line
  dsimp only
  rw [h]

theorem split_opened (source : String) : Block.opened.split (Text.expandTabs source) =
    (none, if '}' ∈ source.toList then .closed else .opened) := by
  unfold Block.split
  simp [mem_expandTabs_iff]

theorem split_opening {source : String} (h : firstChar? source = some '{') :
    Block.closed.split (Text.expandTabs source) =
      (none, if '}' ∈ source.toList then .closed else .opened) := by
  rw [← firstChar?_expandTabs] at h
  unfold Block.split
  simp only [firstChar?] at h
  simp [h, mem_expandTabs_iff]

theorem split_code {source : String} (h : firstChar? source ≠ some '{') :
    Block.closed.split (Text.expandTabs source) =
      (some (Word.split (Text.expandTabs source)), .closed) := by
  rw [← firstChar?_expandTabs] at h
  exact if_neg h

/-- Inside a block comment, lines without a closing brace count and do nothing else. -/
theorem lines_inside {a : Assembly} (hblock : a.block = .opened) {body : List String}
    (h : ∀ source ∈ body, '}' ∉ source.toList) :
    body.foldl line a = { a with lineNumber := a.lineNumber + body.length } := by
  induction body generalizing a with
  | nil => rfl
  | cons source body ih =>
    have hsource : '}' ∉ source.toList := h source List.mem_cons_self
    have hline : a.line source = { a with lineNumber := a.lineNumber + 1, block := .opened } := by
      apply line_of_split_none
      rw [hblock, split_opened, if_neg hsource]
    rw [List.foldl_cons, hline, ih rfl fun s hs => h s (List.mem_cons_of_mem _ hs), ← hblock]
    rw [List.length_cons, Nat.add_assoc, Nat.add_comm 1]

/-- A record more is found under its own number, and under no other. -/
theorem line?_of_push {a b : Assembly} {record : Line} (h : b.lines = a.lines.push record)
    (n : Nat) : b.line? n = (a.line? n).or (if record.number = n then some record else none) := by
  unfold line?
  rw [h, Array.find?_push]
  by_cases hn : record.number = n
  · simp [hn]
  · simp [hn]

theorem passed_quiet (a : Assembly) (n : Nat) :
    Passed a { a with lineNumber := a.lineNumber + n } n :=
  ⟨⟨rfl, rfl, rfl, rfl, rfl, rfl, rfl⟩, rfl, fun _ _ => rfl⟩

/-- A line with nothing but a comment leaves its record. -/
theorem passed_comment {a : Assembly} (hblock : a.block = .closed)
    (hnext : a.nextPc.toNat ≤ a.lastPc.toNat) {source : String}
    (h : firstChar? source = some '\'') : Passed a (a.line source) 1 := by
  have hcode : firstChar? source ≠ some '{' := by
    rw [h]
    decide
  rw [← firstChar?_expandTabs] at h
  obtain ⟨text, column, hscan⟩ := Word.scan_only_comment h 0
  have hsplit : a.block.split (Text.expandTabs source) =
      (some [Word.comment text column], .closed) := by
    rw [hblock, split_code hcode, Word.split, hscan]
    rfl
  have hwords : a.nextWords source = [Word.comment text column] := by
    rw [nextWords, hsplit]
    rfl
  obtain ⟨hnil, -⟩ | ⟨-, started, hline⟩ := a.line_eq source
  · rw [hwords] at hnil
    cases hnil
  rw [hsplit, hwords] at hline
  -- Without code there is nothing to do.
  have hread : read a.nextPc (Word.code [Word.comment text column]) (a.begun .closed started) =
      .ok (none, .nothing) (a.begun .closed started) := rfl
  rw [assembleWords_of_ok source hread] at hline
  rw [hline]
  refine ⟨⟨?_, rfl, rfl, rfl, rfl, ?_, rfl⟩, rfl, ?_⟩
  · exact hblock.symm
  · exact if_neg (Nat.not_lt.mpr hnext)
  · intro number hnumber
    have hne : ¬ a.lineNumber + 1 = number := by omega
    refine (line?_of_push rfl number).trans ?_
    show (a.line? number).or (if a.lineNumber + 1 = number then _ else _) = _
    rw [if_neg hne, Option.or_none]

/-- A group of lines is passed over. -/
theorem passed_of_skippable {a : Assembly} (hblock : a.block = .closed)
    (hnext : a.nextPc.toNat ≤ a.lastPc.toNat) {z : List String} (hz : Skippable z) :
    Passed a (z.foldl line a) z.length := by
  have hquiet : ∀ {source},
      a.line source = { a with lineNumber := a.lineNumber + 1, block := .closed } →
      Passed a (a.line source) 1 := by
    intro source hline
    rw [hline, ← hblock]
    exact a.passed_quiet 1
  cases hz with
  | @blank source empty =>
    -- Blanks are split into no words.
    have hcode : firstChar? source ≠ some '{' := by
      rw [empty]
      decide
    rw [← firstChar?_expandTabs, firstChar?, List.head?_eq_none_iff] at empty
    have hsplit : a.block.split (Text.expandTabs source) = (some [], .closed) := by
      rw [hblock, split_code hcode, Word.split, Word.scan_blank empty]
      rfl
    apply hquiet
    unfold line
    dsimp only
    rw [hsplit]
  | @comment source apostrophe => exact passed_comment hblock hnext apostrophe
  | @inline source opens closes =>
    -- The comment is closed on the line that opens it.
    apply hquiet
    apply line_of_split_none
    rw [hblock, split_opening opens, if_pos closes]
  | @block first body last opens stays inside closes =>
    -- The first line opens the comment, and no line before the last closes it.
    have hfirst : a.line first = { a with lineNumber := a.lineNumber + 1, block := .opened } := by
      apply line_of_split_none
      rw [hblock, split_opening opens, if_neg stays]
    have hinside : body.foldl line (a.line first) =
        { a with lineNumber := a.lineNumber + 1 + body.length, block := .opened } := by
      rw [hfirst, lines_inside rfl inside]
    have hlast : (body.foldl line (a.line first)).line last =
        { a with lineNumber := a.lineNumber + (1 + body.length + 1) } := by
      rw [hinside, line_of_split_none (split_opened last), if_pos closes, ← hblock]
      simp only [Nat.add_assoc]
    have hlength : (first :: (body ++ [last])).length = 1 + body.length + 1 := by
      rw [List.length_cons, List.length_append, List.length_singleton, Nat.add_comm 1]
    rw [List.foldl_cons, List.foldl_append, List.foldl_cons, List.foldl_nil, hlast, hlength]
    exact a.passed_quiet _

/-! ## Passes with more lines -/

/-- A pass beside one that has had `added` more lines behind the first `before` ones. -/
structure Shifted (before added : Nat) (a b : Assembly) : Prop where
  beside : Beside (SymbolTable.Renumbered (Line.shift before added)) a b
  lineNumber : b.lineNumber = a.lineNumber + added
  behind : before ≤ a.lineNumber
  earlier : ∀ n ≤ before, b.line? n = a.line? n
  later : ∀ n > before,
    b.line? (n + added) = (a.line? n).map (Line.renumber (Line.shift before added))

/-- A line more leaves the passes beside each other. -/
theorem Shifted.line {before added : Nat} {a b : Assembly} (h : Shifted before added a b)
    (source : String) : Shifted before added (a.line source) (b.line source) := by
  have hbehind := h.behind
  have hnumber := h.lineNumber
  have hshift : Line.shift before added (a.lineNumber + 1) = b.lineNumber + 1 := by
    rw [Line.shift, if_neg (by omega)]
    omega
  have htracked : SymbolTable.Tracked (SymbolTable.Renumbered (Line.shift before added))
      (Line.shift before added) (a.lineNumber + 1) (b.lineNumber + 1) := by
    have hzero : Line.shift before added 0 = 0 := if_pos (Nat.zero_le before)
    rw [← hshift]
    exact SymbolTable.tracked_renumbered hzero _
  have hwords : b.nextWords source = a.nextWords source := by
    unfold nextWords
    rw [h.beside.block]
  have hblock : (b.block.split (Text.expandTabs source)).2 =
      (a.block.split (Text.expandTabs source)).2 := by rw [h.beside.block]
  -- Both passes read the same words, so that their records differ in the numbers only.
  obtain ⟨hbeside, hrecorded⟩ := line_beside h.beside htracked hblock (by rw [hwords])
    (by rw [hwords]; exact List.forall₂_refl _)
  refine ⟨hbeside, ?_, ?_, ?_, ?_⟩
  · rw [lineNumber_line, lineNumber_line]
    omega
  · rw [lineNumber_line]
    omega
  · -- The new record has a number behind all that are compared here.
    intro n hn
    cases hrecorded with
    | none hlines hlines' =>
      unfold line?
      rw [hlines, hlines']
      exact h.earlier n hn
    | same pc outcome hlines hlines' =>
      have hne : ¬ a.lineNumber + 1 = n := by omega
      have hne' : ¬ b.lineNumber + 1 = n := by omega
      rw [line?_of_push hlines, line?_of_push hlines', if_neg hne, if_neg hne', Option.or_none,
        Option.or_none]
      exact h.earlier n hn
  · -- The new record is found under the shifted number, and any other as before.
    intro n hn
    cases hrecorded with
    | none hlines hlines' =>
      unfold line?
      rw [hlines, hlines']
      exact h.later n hn
    | same pc outcome hlines hlines' =>
      rw [line?_of_push hlines, line?_of_push hlines', h.later n hn]
      dsimp only
      by_cases heq : a.lineNumber + 1 = n
      · rw [if_pos heq, if_pos (by omega), Option.map_or, hwords]
        simp only [Option.map_some, Line.renumber, hshift]
      · rw [if_neg heq, if_neg (by omega), Option.or_none, Option.or_none]

/-- Lines more leave the passes beside each other. -/
theorem Shifted.lines {before added : Nat} {a b : Assembly} (h : Shifted before added a b)
    (sources : List String) :
    Shifted before added (sources.foldl Assembly.line a) (sources.foldl Assembly.line b) := by
  induction sources generalizing a b with
  | nil => exact h
  | cons source sources ih => exact ih (h.line source)

/-- Symbols are mentioned on the lines so far. -/
theorem CrossReferenced.references_le {history : List Mentions} {a : Assembly}
    (h : CrossReferenced history a) {name : String} {s : Symbol}
    (hget : a.symbols.get? name = some s) {n : Nat} (hn : n ∈ s.references) : n ≤ a.lineNumber := by
  have hcounted := h.counted
  obtain ⟨-, i, m, hi, -, hreferences⟩ | ⟨-, hreferences, -⟩ := h.traced.symbols name s hget
  · rw [hreferences] at hn
    rcases List.mem_cons.mp hn with rfl | huse
    · have hlt := (List.getElem?_eq_some_iff.mp hi).1
      omega
    · have hle := le_of_mem_useLines huse
      omega
  · rw [hreferences] at hn
    have hle := le_of_mem_useLines hn
    omega

/-- There is no record of a line that has not come yet. -/
theorem Replayed.line?_eq_none {a : Assembly} (h : Replayed a) {n : Nat} (hn : a.lineNumber < n) :
    a.line? n = none := by
  refine Array.find?_eq_none.mpr fun record hrecord => ?_
  have hle := h.counted record (Array.mem_toList_iff.mpr hrecord)
  rw [beq_iff_eq]
  omega

/-- Behind lines that are passed over, the pass is beside the one without them. -/
theorem Passed.shifted {history : List Mentions} {a b : Assembly} {n : Nat} (h : Passed a b n)
    (ha : Replayed a) (hb : Replayed b) (hreferences : CrossReferenced history a) :
    Shifted a.lineNumber n a b where
  beside := by
    refine ⟨h.beside.block, ?_, h.beside.image, h.beside.imageEnd, h.beside.nextPc,
      h.beside.lastPc, h.beside.scope⟩
    intro name
    rw [← h.beside.symbols]
    cases hget : a.symbols.get? name with
    | none => rfl
    | some s =>
      -- All lines that mention the symbol come before.
      have hsame : s.references.map (Line.shift a.lineNumber n) = s.references := by
        conv_rhs => rw [← List.map_id s.references]
        exact List.map_congr_left fun line hline => if_pos (hreferences.references_le hget hline)
      rw [Option.map_some, Symbol.renumber, hsame]
  lineNumber := h.lineNumber
  behind := Nat.le_refl _
  earlier := h.line?
  later := by
    intro number hnumber
    have hbehind : b.lineNumber < number + n := by
      rw [h.lineNumber]
      omega
    rw [ha.line?_eq_none hnumber, hb.line?_eq_none hbehind]
    rfl

/-- The end of a pass only adds to the log. -/
theorem Shifted.finish {before added : Nat} {a b : Assembly} (h : Shifted before added a b) :
    Shifted before added a.finish b.finish := by
  obtain ⟨log, ha⟩ := a.finish_eq
  obtain ⟨log', hb⟩ := b.finish_eq
  rw [ha, hb]
  exact ⟨⟨h.beside.block, h.beside.symbols, h.beside.image, h.beside.imageEnd, h.beside.nextPc,
    h.beside.lastPc, h.beside.scope⟩, h.lineNumber, h.behind, h.earlier, h.later⟩

theorem lineNumber_foldl (sources : List String) (a : Assembly) :
    (sources.foldl line a).lineNumber = a.lineNumber + sources.length := by
  induction sources generalizing a with
  | nil => rfl
  | cons source sources ih =>
    rw [List.foldl_cons, ih, lineNumber_line, List.length_cons]
    omega

theorem settled_foldl (sources : List String) {a : Assembly} (h : Settled a) :
    Settled (sources.foldl line a) := by
  induction sources generalizing a with
  | nil => exact h
  | cons source sources ih => exact ih (h.line source)

/-- Lines that are passed over only move the lines behind them: when they stand between two lines
outside of block comments, the pass has the same image, the same binary, the same program counters
and the same symbols with the same values, and its records tell the same, under numbers that are
higher by the number of lines put in.  The lines in the references of symbols and in faults about
redefinitions are moved along. -/
theorem skipped_lines_only_renumber (a : Assembly) (xs z ys : List String)
    (hclosed : (xs.foldl line a.clear).block = .closed) (hz : Skippable z) :
    let plain := a.assembleLines (xs ++ ys)
    let spaced := a.assembleLines (xs ++ z ++ ys)
    let φ := Line.shift xs.length z.length
    spaced.image = plain.image ∧ spaced.imageEnd = plain.imageEnd ∧
      spaced.binary = plain.binary ∧ spaced.nextPc = plain.nextPc ∧ spaced.lastPc = plain.lastPc ∧
      spaced.symbols.names = plain.symbols.names ∧
      (∀ name, spaced.symbols.get? name =
        (plain.symbols.get? name).map fun s => { s with references := s.references.map φ }) ∧
      (∀ n ≤ xs.length, spaced.line? n = plain.line? n) ∧
      ∀ n > xs.length, spaced.line? (n + z.length) = (plain.line? n).map (Line.renumber φ) := by
  intro plain spaced φ
  have hsettled := settled_foldl xs (settled_clear a)
  obtain ⟨history, hhistory, -⟩ := crossReferenced_foldl xs (crossReferenced_clear a)
  have hnumber : (xs.foldl line a.clear).lineNumber = xs.length :=
    (lineNumber_foldl xs a.clear).trans (Nat.zero_add _)
  have hpassed := passed_of_skippable hclosed hsettled.nextPc_le hz
  have hshifted := hpassed.shifted hsettled.replayed (settled_foldl z hsettled).replayed hhistory
  rw [hnumber] at hshifted
  -- The lines behind keep the passes beside each other, and so does the end of the pass.
  have h : Shifted xs.length z.length plain spaced := by
    have hall := (hshifted.lines ys).finish
    rw [← List.foldl_append, ← List.foldl_append, ← List.foldl_append, ← List.append_assoc] at hall
    exact hall
  have hbinary : spaced.binary = plain.binary := by
    unfold binary
    rw [h.beside.image, h.beside.imageEnd]
  exact ⟨h.beside.image, h.beside.imageEnd, hbinary, h.beside.nextPc, h.beside.lastPc,
    h.beside.symbols.names, h.beside.symbols, h.earlier, h.later⟩

/-- A block comment of two lines before a label that is bound twice. -/
theorem block_comment_only_renumbers :
    ([" nop"].foldl line (Assembly.clear {})).block = .closed ∧
    Skippable ["\t\x7b one", "two \x7d three"] ∧
    (let plain := ({} : Assembly).assembleLines ([" nop"] ++ ["x long x", "x nop"])
      let spaced := ({} : Assembly).assembleLines
        ([" nop"] ++ ["\t\x7b one", "two \x7d three"] ++ ["x long x", "x nop"])
      spaced.binary = plain.binary ∧
        (plain.line? 3).map (·.outcome) = some (.fault (.redefinition "x" 2 1)) ∧
        (spaced.line? 5).map (·.outcome) = some (.fault (.redefinition "x" 4 1)) ∧
        (plain.symbols.get? "x").map (·.references) = some [2, 2] ∧
        (spaced.symbols.get? "x").map (·.references) = some [4, 4]) := by
  have hclosed : ([" nop"].foldl line (Assembly.clear {})).block = .closed := by decide +kernel
  have hz : Skippable ["\t\x7b one", "two \x7d three"] :=
    @Skippable.block _ [] _ (by decide +kernel) (by decide +kernel) (fun _ h => nomatch h)
      (by decide +kernel)
  have houtcome : ((({} : Assembly).assembleLines ([" nop"] ++ ["x long x", "x nop"])).line? 3).map
      (·.outcome) = some (.fault (.redefinition "x" 2 1)) := by decide +kernel
  have hreferences :
      ((({} : Assembly).assembleLines ([" nop"] ++ ["x long x", "x nop"])).symbols.get? "x").map
        (·.references) = some [2, 2] := by decide +kernel
  obtain ⟨-, -, hbinary, -, -, -, hsymbols, -, hlater⟩ :=
    skipped_lines_only_renumber {} [" nop"] ["\t\x7b one", "two \x7d three"] ["x long x", "x nop"]
      hclosed hz
  refine ⟨hclosed, hz, hbinary, houtcome, ?_, hreferences, ?_⟩
  · obtain ⟨record, hrecord, hfault⟩ := Option.map_eq_some_iff.mp houtcome
    have hfive := hlater 3 (by decide)
    rw [hrecord] at hfive
    refine Option.map_eq_some_iff.mpr ⟨_, hfive, ?_⟩
    rw [Line.renumber, hfault]
    rfl
  · obtain ⟨s, hs, hlines⟩ := Option.map_eq_some_iff.mp hreferences
    rw [hsymbols, hs, Option.map_some, Option.map_some, hlines]
    rfl

end Assembly

end PropellerAsm
