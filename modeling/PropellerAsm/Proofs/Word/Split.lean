import PropellerAsm.Word.Split

/-!
# The words of a line

Every word outside the comment is classified by its text alone.
-/
namespace PropellerAsm

theorem Token.ofText_of_find? {text : String} {keyword : Keyword}
    (h : Keyword.find? text = some keyword) : Token.ofText text = .keyword keyword := by
  rw [Token.ofText, h]

/-- A text that is classified is no comment. -/
theorem Token.ofText_ne_comment (text : String) : Token.ofText text ≠ .comment := by
  unfold Token.ofText
  split
  · exact Token.noConfusion
  · exact Token.noConfusion

namespace Word

theorem token_ofText (text : String) (column : Nat) (comma : Bool) :
    (Word.ofText text column comma).token = .ofText text := by
  rw [Word.ofText]

/-- The word is a comment, or its text says what it is. -/
def Classified (word : Word) : Prop :=
  word.token = .comment ∨ word.token = .ofText word.text

theorem classified_close {t : Tail} (h : ∀ word ∈ t.words, word.Classified) (column : Nat) :
    ∀ word ∈ t.close column, word.Classified := by
  unfold Tail.close
  split
  · exact h
  · intro word hword
    rcases List.mem_cons.mp hword with rfl | hword
    · exact .inr (token_ofText _ _ _)
    · exact h word hword

theorem classified_scan (column : Nat) (quoted : Bool) (cs : List Char) :
    ∀ word ∈ (scan column quoted cs).words, word.Classified := by
  fun_induction scan column quoted cs with
  | case1 => simp
  | case2 column quoted c rest ih => exact ih
  | case3 column quoted c rest _ _ ih => exact ih
  | case4 column c rest _ _ ih => exact ih
  | case5 column c rest _ _ _ =>
    intro word hword
    obtain rfl := List.mem_singleton.mp hword
    exact .inl rfl
  | case6 column quoted c rest _ _ _ _ _ t ih => exact classified_close ih (column + 1)
  | case7 column quoted c rest _ _ _ _ _ ih => exact ih

theorem classified_split (line : String) : ∀ word ∈ split line, word.Classified :=
  classified_close (classified_scan 0 false line.toList) 0

/-- A plain word is no keyword. -/
theorem Classified.find?_eq_none {word : Word} (h : word.Classified)
    (hplain : word.token = .plain) : Keyword.find? word.text = none := by
  obtain hcomment | htext := h
  · rw [hplain] at hcomment
    cases hcomment
  · rw [hplain, Token.ofText] at htext
    split at htext
    · cases htext
    · assumption

/-- A word that is a keyword is found as that keyword. -/
theorem Classified.find?_eq_some {word : Word} (h : word.Classified) {keyword : Keyword}
    (hkeyword : word.token = .keyword keyword) : Keyword.find? word.text = some keyword := by
  obtain hcomment | htext := h
  · rw [hkeyword] at hcomment
    cases hcomment
  · rw [hkeyword, Token.ofText] at htext
    split at htext
    · rename_i found hfound
      obtain rfl := Token.keyword.inj htext
      exact hfound
    · cases htext

end Word

end PropellerAsm
