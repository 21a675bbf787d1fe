import PropellerAsm.Proofs.Encoding.Lockstep
import PropellerAsm.Proofs.Word.Spacing
import PropellerAsm.Proofs.Word.Split

/-!
# How lines are spelled

The words of a line are told by their texts and by the commas behind them.  A line that is written
from words, with a space before each of them, has these words again.
-/
namespace PropellerAsm

namespace Word

/-- The texts of words, and which of them a comma follows. -/
def spelling (words : List Word) : List (String × Bool) :=
  words.map fun word => (word.text, word.comma)

/-- Classified words with the same spelling are the same words at other columns. -/
theorem sameSpelling_of_spelling {words words' : List Word}
    (h : spelling words' = spelling words)
    (hwords : ∀ word ∈ words, word.token = .ofText word.text)
    (hwords' : ∀ word ∈ words', word.token = .ofText word.text) :
    List.Forall₂ SameSpelling words words' := by
  induction words generalizing words' with
  | nil => exact List.forall₂_nil_left_iff.mpr (List.map_eq_nil_iff.mp h)
  | cons word words ih =>
    cases words' with
    | nil => cases h
    | cons word' words' =>
      obtain ⟨hword, hrest⟩ := List.cons.inj h
      obtain ⟨htext, hcomma⟩ := Prod.mk.inj hword
      refine .cons ⟨htext.symm, ?_, hcomma.symm⟩ (ih hrest
        (fun w hw => hwords w (List.mem_cons_of_mem _ hw))
        (fun w hw => hwords' w (List.mem_cons_of_mem _ hw)))
      rw [hwords word List.mem_cons_self, hwords' word' List.mem_cons_self, htext]

end Word

/-- Apart from a comment the words of the line are spelled like these. -/
def Spells (source : String) (words : List Word) : Prop :=
  Word.spelling (Word.code ((Block.closed.split (Text.expandTabs source)).1.getD [])) =
    Word.spelling words

/-! ## Written lines -/

namespace Word

/-- The character means nothing but itself in a word. -/
def isOrdinary (c : Char) : Bool :=
  c != '\\' && c != '"' && c != '\'' && c != '{' && !isSeparator c

/-- The text is one word as it stands. -/
def isSpellable (text : String) : Bool :=
  !text.toList.isEmpty && text.toList.all isOrdinary

theorem isSpellable_iff {text : String} : isSpellable text = true ↔
    text.toList ≠ [] ∧ ∀ c ∈ text.toList, isOrdinary c = true := by
  rw [isSpellable, Bool.and_eq_true, Bool.not_eq_true', List.isEmpty_eq_false_iff,
    List.all_eq_true]

theorem not_isBlank_of_isOrdinary {c : Char} (h : isOrdinary c = true) :
    Text.isBlank c = false := by
  simp only [isOrdinary, isSeparator, Bool.and_eq_true, Bool.not_eq_true',
    Bool.or_eq_false_iff] at h
  exact h.2.2

/-- The characters of a line with a space before every word. -/
def chars : List Word → List Char
  | [] => []
  | word :: words =>
    ' ' :: (word.text.toList ++ ((if word.comma then [','] else []) ++ chars words))

/-- The line with a space before every word. -/
def render (words : List Word) : String :=
  String.ofList (chars words)

theorem scan_ordinary {text : List Char} (h : ∀ c ∈ text, isOrdinary c = true) (column : Nat)
    (cs : List Char) : scan column false (text ++ cs) =
      (scan (column + text.length) false cs).push text := by
  induction text generalizing column with
  | nil => rfl
  | cons c text ih =>
    have hc := h c List.mem_cons_self
    simp only [isOrdinary, Bool.and_eq_true, bne_iff_ne, Bool.not_eq_true'] at hc
    obtain ⟨⟨⟨⟨hescape, hquote⟩, hcomment⟩, -⟩, hseparator⟩ := hc
    rw [List.cons_append, scan_code column hescape hquote hcomment hseparator,
      ih fun d hd => h d (List.mem_cons_of_mem _ hd), List.length_cons, Nat.add_right_comm,
      Nat.add_assoc]
    rfl

/-- What a scan finds in a written line: no word is in progress at its start. -/
structure Tail.Spells (t : Tail) (words : List Word) : Prop where
  head : t.head = []
  spelling : Word.spelling t.words = Word.spelling words
  token : ∀ word ∈ t.words, word.token = .ofText word.text

/-- A comma before words is not one of them. -/
theorem Tail.Spells.comma {t : Tail} {words : List Word} (h : t.Spells words) (column : Nat) :
    (t.separated ',' column).Spells words := by
  have hwords : (t.separated ',' column).words = t.words := Tail.close_of_nil h.head column
  exact ⟨rfl, by rw [hwords, h.spelling], by rw [hwords]; exact h.token⟩

/-- A space and a text before words is one word more. -/
theorem Tail.Spells.word {t : Tail} {words : List Word} (h : t.Spells words) {word : Word}
    (hcomma : t.comma = word.comma) (hne : word.text.toList ≠ []) (column : Nat) :
    ((t.push word.text.toList).separated ' ' column).Spells (word :: words) ∧
      ((t.push word.text.toList).separated ' ' column).comma = false := by
  have hhead : (t.push word.text.toList).head = word.text.toList := by
    rw [Tail.push, h.head, List.append_nil]
  have hempty : (t.push word.text.toList).head.isEmpty = false := by
    rw [hhead, List.isEmpty_eq_false_iff]
    exact hne
  have hwords : ((t.push word.text.toList).separated ' ' column).words =
      .ofText word.text column word.comma :: t.words := by
    unfold Tail.separated Tail.close
    rw [hempty, hhead, String.ofList_toList, if_neg Bool.false_ne_true, ← hcomma]
    rfl
  refine ⟨⟨rfl, ?_, ?_⟩, ?_⟩
  · rw [hwords, Word.spelling, List.map_cons]
    exact congrArg _ h.spelling
  · rw [hwords]
    intro w hw
    obtain rfl | hmem := List.mem_cons.mp hw
    · exact Word.token_ofText _ _ _
    · exact h.token w hmem
  · unfold Tail.separated
    rw [hempty]
    rfl

theorem scan_chars {words : List Word} (h : ∀ word ∈ words, isSpellable word.text = true)
    (column : Nat) : (scan column false (chars words)).Spells words ∧
      (scan column false (chars words)).comma = false := by
  induction words generalizing column with
  | nil => exact ⟨⟨rfl, rfl, fun word hword => nomatch hword⟩, rfl⟩
  | cons word words ih =>
    obtain ⟨hne, hordinary⟩ := isSpellable_iff.mp (h word List.mem_cons_self)
    have hrest := ih fun w hw => h w (List.mem_cons_of_mem _ hw)
    -- Behind the text of the word stands its comma, or at once the next word.
    have hbehind : ∀ column, ∃ t : Tail, t.Spells words ∧ t.comma = word.comma ∧
        scan column false ((if word.comma then [','] else []) ++ chars words) = t := by
      intro column
      cases word.comma with
      | false => exact ⟨_, (hrest column).1, (hrest column).2, rfl⟩
      | true =>
        exact ⟨_, (hrest (column + 1)).1.comma (column + 1), rfl,
          scan_separator column (by decide) _⟩
    obtain ⟨t, hspells, hcomma, ht⟩ := hbehind (column + 1 + word.text.toList.length)
    rw [chars, scan_separator column (by decide), scan_ordinary hordinary, ht]
    exact hspells.word hcomma hne (column + 1)

theorem mem_chars {words : List Word} {c : Char} (h : c ∈ chars words) :
    c = ' ' ∨ c = ',' ∨ ∃ word ∈ words, c ∈ word.text.toList := by
  induction words with
  | nil => cases h
  | cons word words ih =>
    obtain rfl | hmem := List.mem_cons.mp h
    · exact .inl rfl
    obtain htext | hmem := List.mem_append.mp hmem
    · exact .inr (.inr ⟨word, List.mem_cons_self, htext⟩)
    obtain hcomma | hrest := List.mem_append.mp hmem
    · split at hcomma
      · exact .inr (.inl (List.mem_singleton.mp hcomma))
      · cases hcomma
    · obtain hspace | hcomma | ⟨w, hw, hc⟩ := ih hrest
      · exact .inl hspace
      · exact .inr (.inl hcomma)
      · exact .inr (.inr ⟨w, List.mem_cons_of_mem _ hw, hc⟩)

/-- The first character of a written line belongs to its first word. -/
theorem head?_trimLeft_chars {words : List Word}
    (h : ∀ word ∈ words, isSpellable word.text = true) :
    ∀ c ∈ (Text.trimLeft (chars words)).head?, isOrdinary c = true := by
  cases words with
  | nil => exact fun c hc => nomatch hc
  | cons word words =>
    obtain ⟨hne, hordinary⟩ := isSpellable_iff.mp (h word List.mem_cons_self)
    rw [chars, Text.trimLeft_cons_of_blank (by decide)]
    cases htext : word.text.toList with
    | nil => exact absurd htext hne
    | cons d text =>
      have hd : isOrdinary d = true := hordinary d (by rw [htext]; exact List.mem_cons_self)
      rw [List.cons_append, Text.trimLeft_cons_of_not_blank (not_isBlank_of_isOrdinary hd)]
      intro c hc
      obtain rfl := Option.some.inj hc
      exact hd

/-- A written line is spelled like its words. -/
theorem spells_of_render {words : List Word} {source : String} (hrender : render words = source)
    (h : ∀ word ∈ words, isSpellable word.text = true) : Spells source words := by
  subst hrender
  have htabs : '\t' ∉ chars words := by
    intro hmem
    obtain htab | htab | ⟨word, hword, htab⟩ := mem_chars hmem
    · cases htab
    · cases htab
    · exact absurd ((isSpellable_iff.mp (h word hword)).2 _ htab) (by decide)
  have hexpand : Text.expandTabs (render words) = render words := by
    unfold Text.expandTabs render
    rw [String.toList_ofList, Text.expandFrom_of_not_mem htabs]
  have hopening : (Text.trimLeft (render words).toList).head? ≠ some '{' := by
    rw [render, String.toList_ofList]
    intro hhead
    exact absurd (head?_trimLeft_chars h _ hhead) (by decide)
  -- Scanning gives back the words, none of which is a comment.
  obtain ⟨⟨hhead, hspelling, htoken⟩, -⟩ := scan_chars h 0
  have hwords : Word.split (render words) = (scan 0 false (chars words)).words := by
    rw [Word.split, render, String.toList_ofList, Tail.close_of_nil hhead]
  have hcode : Word.code (Word.split (render words)) = Word.split (render words) := by
    refine List.filter_eq_self.mpr fun word hword => ?_
    rw [hwords] at hword
    rw [htoken word hword, bne_iff_ne]
    exact Token.ofText_ne_comment word.text
  unfold Spells Block.split
  dsimp only
  rw [hexpand, if_neg hopening, Option.getD_some, hcode, hwords]
  exact hspelling

end Word

end PropellerAsm
