import PropellerAsm.Proofs.Assembly.Lockstep
import PropellerAsm.Proofs.Word.Spacing

/-!
# Lines with other spaces

Spaces that separate words may be as many as one likes: the line does the same, and its record
differs in nothing but the source, the columns of the words and the text of the comment.
-/
namespace PropellerAsm

/-- The words outside the comment are spelled the same. -/
theorem Word.code_similar {words words' : List Word} (h : List.Forall₂ Word.Similar words words') :
    List.Forall₂ Word.SameSpelling (Word.code words) (Word.code words') := by
  induction h with
  | nil => exact .nil
  | @cons v w rest rest' hword _ ih =>
    unfold Word.code at ih ⊢
    by_cases hcomment : v.token = .comment
    · have hcomment' : w.token = .comment := hword.token.symm.trans hcomment
      rw [List.filter_cons_of_neg (by simp [hcomment]),
        List.filter_cons_of_neg (by simp [hcomment'])]
      exact ih
    · have hcomment' : w.token ≠ .comment := fun h => hcomment (hword.token.trans h)
      rw [List.filter_cons_of_pos (by simpa using hcomment),
        List.filter_cons_of_pos (by simpa using hcomment')]
      exact .cons ⟨hword.text.resolve_left hcomment, hword.token, hword.comma⟩ ih

theorem Fault.renumber_id (f : Fault) : f.renumber id = f := by
  cases f with
  | _ => rfl

theorem Outcome.renumber_id (outcome : Outcome) : outcome.renumber id = outcome := by
  cases outcome with
  | fault f => exact congrArg Outcome.fault f.renumber_id
  | _ => rfl

/-- A table beside itself. -/
theorem SymbolTable.tracked_eq (line : Nat) : SymbolTable.Tracked Eq id line line where
  toCoupled := SymbolTable.coupled_eq line
  definition := by
    rintro t _ rfl name
    rfl
  define := by
    rintro t _ rfl name value
    cases t.define? name value line with
    | none => exact .none
    | some t' => exact .some rfl
  set := by
    rintro t _ rfl name value
    rfl

namespace Assembly

/-- However many spaces separate two words, a line leaves the same image, program counters, symbols
and scope, and its record has the same program counter, the same outcome and the same words, at
other columns.  The place before the spaces lies in code and is not protected, and no tab behind
them is protected or stands in a string. -/
theorem spaces_between_words_insignificant (a : Assembly) {before after : List Char}
    (hplace : Word.Place.behind {} before = {}) (htabs : Word.Place.TabsFree {} after)
    (m n : Nat) :
    let b := a.line (Word.spaced before after m)
    let c := a.line (Word.spaced before after n)
    (c.image = b.image ∧ c.imageEnd = b.imageEnd ∧ c.nextPc = b.nextPc ∧ c.lastPc = b.lastPc ∧
      c.symbols = b.symbols ∧ c.scope = b.scope ∧ c.block = b.block ∧
      c.lineNumber = b.lineNumber) ∧
    ((b.lines = a.lines ∧ c.lines = a.lines) ∨
      ∃ record record' : Line, b.lines = a.lines.push record ∧ c.lines = a.lines.push record' ∧
        record'.number = record.number ∧ record'.pc = record.pc ∧
        record'.outcome = record.outcome ∧
        List.Forall₂ Word.Similar record.words record'.words) := by
  intro b c
  obtain ⟨hblock, hwords⟩ := a.block.split_spaced hplace htabs m n
  have hwords : List.Forall₂ Word.Similar (a.nextWords (Word.spaced before after m))
      (a.nextWords (Word.spaced before after n)) := hwords
  have hnone : a.nextWords (Word.spaced before after m) = [] ↔
      a.nextWords (Word.spaced before after n) = [] := by
    rw [← List.length_eq_zero_iff, hwords.length_eq, List.length_eq_zero_iff]
  obtain ⟨hbeside, hrecorded⟩ := line_beside (Beside.refl a)
    (SymbolTable.tracked_eq (a.lineNumber + 1)) hblock hnone (Word.code_similar hwords)
  refine ⟨⟨hbeside.image, hbeside.imageEnd, hbeside.nextPc, hbeside.lastPc, hbeside.symbols.symm,
    hbeside.scope, hbeside.block, ?_⟩, ?_⟩
  · rw [lineNumber_line, lineNumber_line]
  · cases hrecorded with
    | none hlines hlines' => exact .inl ⟨hlines, hlines'⟩
    | same pc outcome hlines hlines' =>
      rw [outcome.renumber_id] at hlines'
      exact .inr ⟨_, _, hlines, hlines', rfl, rfl, rfl, hwords⟩

/-- Three spaces more behind the comma of a line that has a label, a string before the comma and
tabs behind it. -/
theorem spaces_behind_comma_insignificant :
    (Word.Place.behind {} "x mov \"a\\\"b\"-$612260,".toList = {} ∧
      Word.Place.TabsFree {} "##x\twcz ' \tnote".toList) ∧
    (({} : Assembly).line "x mov \"a\\\"b\"-$612260, ##x\twcz ' \tnote").nextPc = 2 ∧
    (({} : Assembly).line "x mov \"a\\\"b\"-$612260,    ##x\twcz ' \tnote").image =
      (({} : Assembly).line "x mov \"a\\\"b\"-$612260, ##x\twcz ' \tnote").image ∧
    (({} : Assembly).line "x mov \"a\\\"b\"-$612260,    ##x\twcz ' \tnote").symbols =
      (({} : Assembly).line "x mov \"a\\\"b\"-$612260, ##x\twcz ' \tnote").symbols := by
  have hplace : Word.Place.behind {} "x mov \"a\\\"b\"-$612260,".toList = {} := by
    decide +kernel
  have htabs : Word.Place.TabsFree {} "##x\twcz ' \tnote".toList := by decide +kernel
  have hshort : Word.spaced "x mov \"a\\\"b\"-$612260,".toList "##x\twcz ' \tnote".toList 0 =
      "x mov \"a\\\"b\"-$612260, ##x\twcz ' \tnote" := by decide +kernel
  have hlong : Word.spaced "x mov \"a\\\"b\"-$612260,".toList "##x\twcz ' \tnote".toList 3 =
      "x mov \"a\\\"b\"-$612260,    ##x\twcz ' \tnote" := by decide +kernel
  obtain ⟨⟨himage, -, -, -, hsymbols, -⟩, -⟩ :=
    spaces_between_words_insignificant {} hplace htabs 0 3
  rw [hshort, hlong] at himage hsymbols
  exact ⟨⟨hplace, htabs⟩, by decide +kernel, himage, hsymbols⟩

/-- A space that a backslash protects belongs to a word, and one more space ends the word; and more
spaces before a string with a tab in it change how many spaces the tab stands for. -/
theorem protected_spaces_significant :
    ((({} : Assembly).line " byte 1\\ 2").lines.toList.map (·.outcome) = [.data [1]] ∧
      (({} : Assembly).line " byte 1\\  2").lines.toList.map (·.outcome) =
        [.fault (.missing .expression)]) ∧
    ((({} : Assembly).line " byte \"a\tb\"").lines.toList.map (·.outcome) =
        [.data ([0x61] ++ List.replicate 8 0x20 ++ [0x62])] ∧
      (({} : Assembly).line "  byte \"a\tb\"").lines.toList.map (·.outcome) =
        [.data ([0x61] ++ List.replicate 7 0x20 ++ [0x62])]) := by
  decide +kernel

end Assembly

end PropellerAsm
