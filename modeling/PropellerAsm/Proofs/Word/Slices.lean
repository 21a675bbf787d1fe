import PropellerAsm.Proofs.Word.Spacing
import PropellerAsm.Proofs.Word.Split

/-!
# Words as slices of their line

The words of a line are read off the line in place: they are what stands between the separators that
nothing protects, up to the comment.  From every index on the scan lays out the rest of the line in
gaps and words, one after the other; what holds of all words of a line follows along this layout.
-/
namespace PropellerAsm.Word

/-! ## Breaks -/

/-- The place before the character at an index. -/
def placeAt (chars : List Char) (i : Nat) : Place :=
  Place.behind {} (chars.take i)

/-- An unprotected separator stands at `i`, outside of strings and of the comment. -/
def SeparatesAt (chars : List Char) (i : Nat) : Prop :=
  placeAt chars i = {} ∧ ∃ c, chars[i]? = some c ∧ isSeparator c = true

/-- The comment starts at `i`. -/
def CommentsAt (chars : List Char) (i : Nat) : Prop :=
  placeAt chars i = {} ∧ chars[i]? = some '\''

/-- No word goes on at `i`. -/
def BreaksAt (chars : List Char) (i : Nat) : Prop :=
  SeparatesAt chars i ∨ CommentsAt chars i

/-- A comma stands at one of the indexes from `j` to before `l`. -/
def CommaIn (chars : List Char) (j l : Nat) : Prop :=
  ∃ i, j ≤ i ∧ i < l ∧ chars[i]? = some ','

/-- The index behind a word. -/
def stop (word : Word) : Nat :=
  word.column + word.text.toList.length

/-- The index of the first of some words, or the end of their line. -/
def start (chars : List Char) (words : List Word) : Nat :=
  (words.head?.map column).getD chars.length

variable {chars : List Char} {i j k l : Nat}

theorem SeparatesAt.not_commentsAt (h : SeparatesAt chars i) : ¬ CommentsAt chars i := by
  rintro ⟨-, hquote⟩
  obtain ⟨-, c, hc, hseparator⟩ := h
  rw [hquote] at hc
  obtain rfl := Option.some.inj hc
  exact absurd hseparator (by decide)

theorem BreaksAt.placeAt_eq (h : BreaksAt chars i) : placeAt chars i = {} :=
  h.elim And.left And.left

/-- Only separators and apostrophes break words. -/
theorem not_breaksAt_of_char {c : Char} (hc : chars[i]? = some c)
    (hseparator : isSeparator c = false) (hapostrophe : c ≠ '\'') : ¬ BreaksAt chars i := by
  rintro (⟨-, d, hd, hd'⟩ | ⟨-, hd⟩)
  · rw [hc] at hd
    obtain rfl := Option.some.inj hd
    rw [hseparator] at hd'
    cases hd'
  · rw [hc] at hd
    exact hapostrophe (Option.some.inj hd)

theorem placeAt_succ {c : Char} (hc : chars[i]? = some c) :
    placeAt chars (i + 1) = (placeAt chars i).step c := by
  rw [placeAt, List.take_add_one, hc, Place.behind_append]
  rfl

theorem of_drop_eq_cons {c : Char} {rest : List Char} (h : chars.drop i = c :: rest) :
    chars[i]? = some c ∧ chars.drop (i + 1) = rest := by
  constructor
  · rw [← List.head?_drop, h]
    rfl
  · rw [← List.tail_drop, h]
    rfl

theorem commaIn_self (chars : List Char) (j : Nat) : ¬ CommaIn chars j j := by
  rintro ⟨i, hle, hlt, -⟩
  omega

/-- The first index of a gap is tried before the others. -/
theorem commaIn_iff_of_lt (h : j < l) :
    CommaIn chars j l ↔ chars[j]? = some ',' ∨ CommaIn chars (j + 1) l := by
  constructor
  · rintro ⟨i, hle, hlt, hi⟩
    rcases Nat.eq_or_lt_of_le hle with rfl | hlt'
    · exact .inl hi
    · exact .inr ⟨i, hlt', hlt, hi⟩
  · rintro (hj | ⟨i, hle, hlt, hi⟩)
    · exact ⟨j, Nat.le_refl j, h, hj⟩
    · exact ⟨i, Nat.le_of_succ_le hle, hlt, hi⟩

/-! ## The layout of a line -/

/-- From `k` to before `j` there are separators only. -/
structure Gap (chars : List Char) (k j : Nat) : Prop where
  le : k ≤ j
  separates : ∀ i, k ≤ i → i < j → SeparatesAt chars i

/-- From `j` to before `l` there is a word, as long as it can be. -/
structure Run (chars : List Char) (j l : Nat) : Prop where
  lt : j < l
  le : l ≤ chars.length
  unbroken : ∀ i, j ≤ i → i < l → ¬ BreaksAt chars i
  ended : l < chars.length → BreaksAt chars l

/-- From `k` on the line consists of these words with gaps between them. -/
inductive Laid (chars : List Char) : (k : Nat) → List Word → Prop where
  | blank {k : Nat} (gap : Gap chars k chars.length) : Laid chars k []
  | comment {k j : Nat} (gap : Gap chars k j) (starts : CommentsAt chars j) :
      Laid chars k [.comment (String.ofList (chars.drop j)) j]
  | word {k j l : Nat} {comma : Bool} {words : List Word} (gap : Gap chars k j)
      (run : Run chars j l) (comma_iff : comma = true ↔ CommaIn chars l (start chars words))
      (rest : Laid chars l words) :
      Laid chars k (.ofText (String.ofList ((chars.drop j).take (l - j))) j comma :: words)

theorem Gap.refl (chars : List Char) (k : Nat) : Gap chars k k :=
  ⟨Nat.le_refl k, fun _ hle hlt => absurd hlt (Nat.not_lt.mpr hle)⟩

theorem Gap.cons (h : Gap chars (k + 1) j) (hk : SeparatesAt chars k) : Gap chars k j := by
  refine ⟨Nat.le_of_succ_le h.le, fun i hle hlt => ?_⟩
  rcases Nat.eq_or_lt_of_le hle with rfl | hlt'
  · exact hk
  · exact h.separates i hlt' hlt

/-- A separator before a layout makes the first gap longer. -/
theorem Laid.cons {words : List Word} (h : Laid chars (k + 1) words) (hk : SeparatesAt chars k) :
    Laid chars k words := by
  cases h with
  | blank gap => exact .blank (gap.cons hk)
  | comment gap starts => exact .comment (gap.cons hk) starts
  | word gap run comma_iff rest => exact .word (gap.cons hk) run comma_iff rest

theorem Laid.le_start {words : List Word} (h : Laid chars k words) : k ≤ start chars words := by
  cases h with
  | blank gap => exact gap.le
  | comment gap starts => exact gap.le
  | word gap run comma_iff rest => exact gap.le

/-! ## The scan -/

/-- What a scan finds from `k` on: the rest of the word in progress, and the layout behind it. -/
structure Tail.Found (chars : List Char) (k : Nat) (t : Tail) : Prop where
  head : t.head = (chars.drop k).take t.head.length
  le : k + t.head.length ≤ chars.length
  unbroken : ∀ i, k ≤ i → i < k + t.head.length → ¬ BreaksAt chars i
  ended : k + t.head.length < chars.length → BreaksAt chars (k + t.head.length)
  comma : t.comma = true ↔ CommaIn chars (k + t.head.length) (start chars t.words)
  rest : Laid chars (k + t.head.length) t.words

namespace Tail.Found

variable {t : Tail}

/-- The word in progress starts here. -/
theorem close (h : t.Found chars k) : Laid chars k (t.close k) := by
  by_cases hhead : t.head = []
  · have hrest := h.rest
    rw [hhead] at hrest
    rwa [Tail.close_of_nil hhead]
  · have hpos : 0 < t.head.length := List.length_pos_iff.mpr hhead
    have hrun : Run chars k (k + t.head.length) := ⟨by omega, h.le, h.unbroken, h.ended⟩
    have hlaid := Laid.word (.refl chars k) hrun h.comma h.rest
    rw [Nat.add_sub_cancel_left, ← h.head] at hlaid
    rwa [Tail.close_of_ne_nil hhead]

/-- The word in progress goes on. -/
theorem push (h : t.Found chars (k + 1)) {c : Char} (hc : chars[k]? = some c)
    (hk : ¬ BreaksAt chars k) : (t.push [c]).Found chars k := by
  have hlength : k + (t.push [c]).head.length = k + 1 + t.head.length := by
    show k + (t.head.length + 1) = _
    omega
  have hdrop : chars.drop k = c :: chars.drop (k + 1) := by
    obtain ⟨hlt, rfl⟩ := List.getElem?_eq_some_iff.mp hc
    exact List.drop_eq_getElem_cons hlt
  refine ⟨?_, ?_, ?_, ?_, ?_, ?_⟩
  · show c :: t.head = (chars.drop k).take (t.head.length + 1)
    rw [hdrop, List.take_succ_cons, ← h.head]
  · rw [hlength]
    exact h.le
  · intro i hle hlt
    rcases Nat.eq_or_lt_of_le hle with rfl | hlt'
    · exact hk
    · exact h.unbroken i hlt' (by omega)
  · rw [hlength]
    exact h.ended
  · rw [hlength]
    exact h.comma
  · rw [hlength]
    exact h.rest

/-- A separator ends the word in progress. -/
theorem separated (h : t.Found chars (k + 1)) {c : Char} (hc : chars[k]? = some c)
    (hk : SeparatesAt chars k) : (t.separated c (k + 1)).Found chars k := by
  have hclosed := h.close
  have hstart := hclosed.le_start
  have hcomma : (t.separated c (k + 1)).comma = true ↔
      CommaIn chars k (start chars (t.close (k + 1))) := by
    have hhere : chars[k]? = some ',' ↔ c = ',' := by
      rw [hc]
      exact Option.some_inj
    show (c == ',' || (t.head.isEmpty && t.comma)) = true ↔ _
    rw [commaIn_iff_of_lt hstart, hhere, Bool.or_eq_true, beq_iff_eq, Bool.and_eq_true,
      List.isEmpty_iff]
    refine or_congr Iff.rfl ?_
    by_cases hhead : t.head = []
    · have hcomma := h.comma
      rw [hhead] at hcomma
      rw [Tail.close_of_nil hhead, and_iff_right hhead]
      exact hcomma
    · -- A word stands right behind, so the gap ends here.
      rw [Tail.close_of_ne_nil hhead]
      exact iff_of_false (fun hboth => hhead hboth.1) (commaIn_self chars (k + 1))
  have hlt : k < chars.length := (List.getElem?_eq_some_iff.mp hc).1
  refine ⟨rfl, Nat.le_of_lt hlt, ?_, fun _ => .inl hk, hcomma, hclosed.cons hk⟩
  exact fun i hle hlt => absurd hlt (Nat.not_lt.mpr hle)

end Tail.Found

/-- The place before a character that is read in code, or in a string. -/
def openPlace (quoted : Bool) : Place :=
  { region := if quoted then .text else .code }

/-- Any character but a backslash, a quote and, in code, the start of a comment leads on in code, or
in the string. -/
theorem step_openPlace {quoted : Bool} {c : Char} (hescape : c ≠ '\\') (hquote : c ≠ '"')
    (hcomment : quoted = false → c ≠ '\'') : (openPlace quoted).step c = openPlace quoted := by
  cases quoted with
  | false => simp [Place.step, openPlace, hescape, hquote, hcomment rfl]
  | true => simp [Place.step, openPlace, hescape, hquote]

/-- A separator in code leads on to code. -/
theorem step_separator {c : Char} (h : isSeparator c = true) :
    (openPlace false).step c = openPlace false := by
  refine step_openPlace ?_ ?_ fun _ => ?_
  all_goals
    rintro rfl
    exact absurd h (by decide)

/-- The rest of a line from `column` on is laid out by the scan.  At the end of the line the place
does not matter; a backslash may be the last character. -/
theorem found_scan {column : Nat} {quoted : Bool} {cs : List Char} (hcs : chars.drop column = cs)
    (hcolumn : column ≤ chars.length) (hplace : cs ≠ [] → placeAt chars column = openPlace quoted) :
    (scan column quoted cs).Found chars column := by
  -- Along the reader: behind every character the rest of the line is laid out already.
  fun_induction scan column quoted cs with
  | case1 column quoted =>
    -- The end of the line.
    have hend : column = chars.length := Nat.le_antisymm hcolumn (List.drop_eq_nil_iff.mp hcs)
    subst hend
    have hgap := Laid.blank (.refl chars chars.length)
    refine ⟨rfl, Nat.le_refl _, ?_, fun h => absurd h (Nat.lt_irrefl _), ?_, hgap⟩
    · exact fun i hle hlt => absurd hlt (Nat.not_lt.mpr hle)
    · exact iff_of_false Bool.false_ne_true (commaIn_self chars _)
  | case2 column quoted c rest ih =>
    -- A backslash protects the next character, so both go on with the word.
    obtain ⟨hhere, hdrop⟩ := of_drop_eq_cons hcs
    obtain ⟨hhere', hdrop'⟩ := of_drop_eq_cons hdrop
    have hplace' : placeAt chars (column + 1) = { openPlace quoted with escaped := true } := by
      rw [placeAt_succ hhere, hplace (List.cons_ne_nil _ _)]
      cases quoted <;> rfl
    have hbehind : placeAt chars (column + 2) = openPlace quoted := by
      rw [placeAt_succ hhere', hplace']
      cases quoted <;> rfl
    have hprotected : ¬ BreaksAt chars (column + 1) := by
      intro hbreak
      have hescaped := congrArg Place.escaped hbreak.placeAt_eq
      rw [hplace'] at hescaped
      cases hescaped
    have hfound := ih hdrop' (List.getElem?_eq_some_iff.mp hhere').1 fun _ => hbehind
    exact (hfound.push hhere' hprotected).push hhere (not_breaksAt_of_char hhere rfl (by decide))
  | case3 column quoted c rest _ hquote ih =>
    -- A quote opens a string, or closes one.
    obtain ⟨hhere, hdrop⟩ := of_drop_eq_cons hcs
    obtain rfl := eq_of_beq hquote
    have hbehind : placeAt chars (column + 1) = openPlace (!quoted) := by
      rw [placeAt_succ hhere, hplace (List.cons_ne_nil _ _)]
      cases quoted <;> rfl
    have hfound := ih hdrop (List.getElem?_eq_some_iff.mp hhere).1 fun _ => hbehind
    exact hfound.push hhere (not_breaksAt_of_char hhere (by decide) (by decide))
  | case4 column c rest hescape hquote ih =>
    -- In a string nothing breaks the word.
    obtain ⟨hhere, hdrop⟩ := of_drop_eq_cons hcs
    have hopen := hplace (List.cons_ne_nil _ _)
    have hprotected : ¬ BreaksAt chars column := by
      intro hbreak
      rw [hbreak.placeAt_eq] at hopen
      cases congrArg Place.region hopen
    refine (ih hdrop (List.getElem?_eq_some_iff.mp hhere).1 fun hrest => ?_).push hhere hprotected
    obtain ⟨d, more, rfl⟩ := List.exists_cons_of_ne_nil hrest
    rw [placeAt_succ hhere, hopen]
    exact step_openPlace (fun hc => hescape d more hc rfl) (mt beq_iff_eq.mpr hquote)
      fun hcode => absurd hcode (by decide)
  | case5 column quoted c rest _ _ hcode hapostrophe =>
    -- A comment takes the rest of the line.
    obtain ⟨hhere, hdrop⟩ := of_drop_eq_cons hcs
    obtain rfl := eq_of_beq hapostrophe
    obtain rfl := Bool.eq_false_iff.mpr hcode
    have hcomment : CommentsAt chars column := ⟨hplace (List.cons_ne_nil _ _), hhere⟩
    have hlaid := Laid.comment (.refl chars column) hcomment
    rw [hcs] at hlaid
    refine ⟨rfl, hcolumn, ?_, fun _ => .inr hcomment, ?_, hlaid⟩
    · exact fun i hle hlt => absurd hlt (Nat.not_lt.mpr hle)
    · exact iff_of_false Bool.false_ne_true (commaIn_self chars _)
  | case6 column quoted c rest _ hquote hcode hapostrophe hseparator t ih =>
    -- A separator in code.
    obtain ⟨hhere, hdrop⟩ := of_drop_eq_cons hcs
    obtain rfl := Bool.eq_false_iff.mpr hcode
    have hopen := hplace (List.cons_ne_nil _ _)
    have hbehind : placeAt chars (column + 1) = openPlace false := by
      rw [placeAt_succ hhere, hopen]
      exact step_separator hseparator
    have hfound := ih hdrop (List.getElem?_eq_some_iff.mp hhere).1 fun _ => hbehind
    exact hfound.separated hhere ⟨hopen, c, hhere, hseparator⟩
  | case7 column quoted c rest hescape hquote hcode hapostrophe hseparator ih =>
    -- Any other character in code goes on with the word.
    obtain ⟨hhere, hdrop⟩ := of_drop_eq_cons hcs
    obtain rfl := Bool.eq_false_iff.mpr hcode
    have hbreak : ¬ BreaksAt chars column := not_breaksAt_of_char hhere
      (Bool.eq_false_iff.mpr hseparator) (mt beq_iff_eq.mpr hapostrophe)
    refine (ih hdrop (List.getElem?_eq_some_iff.mp hhere).1 fun hrest => ?_).push hhere hbreak
    obtain ⟨d, more, rfl⟩ := List.exists_cons_of_ne_nil hrest
    rw [placeAt_succ hhere, hplace (List.cons_ne_nil _ _)]
    exact step_openPlace (fun hc => hescape d more hc rfl) (mt beq_iff_eq.mpr hquote)
      fun _ => mt beq_iff_eq.mpr hapostrophe

/-- The words of a line are laid out from its start to its end. -/
theorem laid_split (line : String) : Laid line.toList 0 (split line) :=
  (found_scan rfl (Nat.zero_le _) fun _ => rfl).close

/-! ## Words of a layout -/

/-- The word is a slice of the line, up to a break or to its end. -/
inductive Piece (chars : List Char) : Word → Prop where
  | comment {j : Nat} (starts : CommentsAt chars j) :
      Piece chars (.comment (String.ofList (chars.drop j)) j)
  | word {j l : Nat} {comma : Bool} (run : Run chars j l) :
      Piece chars (.ofText (String.ofList ((chars.drop j).take (l - j))) j comma)

theorem CommentsAt.lt (h : CommentsAt chars i) : i < chars.length :=
  (List.getElem?_eq_some_iff.mp h.2).1

theorem stop_comment (h : CommentsAt chars j) :
    (Word.comment (String.ofList (chars.drop j)) j).stop = chars.length := by
  have hlt := h.lt
  show j + (String.ofList (chars.drop j)).toList.length = _
  rw [String.toList_ofList, List.length_drop]
  omega

theorem stop_word (h : Run chars j l) (comma : Bool) :
    (Word.ofText (String.ofList ((chars.drop j).take (l - j))) j comma).stop = l := by
  have hlt := h.lt
  have hle := h.le
  show j + (String.ofList ((chars.drop j).take (l - j))).toList.length = _
  rw [String.toList_ofList, List.length_take, List.length_drop]
  omega

theorem token_word (text : String) (j : Nat) (comma : Bool) :
    (Word.ofText text j comma).token ≠ .comment := by
  rw [token_ofText]
  exact Token.ofText_ne_comment text

theorem Piece.column_lt_stop {w : Word} (h : Piece chars w) : w.column < w.stop := by
  cases h with
  | comment starts =>
    rw [stop_comment starts]
    exact starts.lt
  | word run =>
    rw [stop_word run]
    exact run.lt

theorem Piece.stop_le {w : Word} (h : Piece chars w) : w.stop ≤ chars.length := by
  cases h with
  | comment starts => exact Nat.le_of_eq (stop_comment starts)
  | word run =>
    rw [stop_word run]
    exact run.le

theorem Piece.slice {w : Word} (h : Piece chars w) :
    (chars.drop w.column).take w.text.toList.length = w.text.toList := by
  cases h with
  | @comment j starts =>
    show (chars.drop j).take (String.ofList (chars.drop j)).toList.length =
      (String.ofList (chars.drop j)).toList
    rw [String.toList_ofList, List.take_length]
  | @word j l comma run =>
    show (chars.drop j).take (String.ofList ((chars.drop j).take (l - j))).toList.length =
      (String.ofList ((chars.drop j).take (l - j))).toList
    rw [String.toList_ofList, List.length_take]
    exact List.take_eq_take_min.symm

/-- Nothing breaks a word but at its ends. -/
theorem Piece.unbroken {w : Word} (h : Piece chars w) (hw : w.token ≠ .comment)
    (hle : w.column ≤ i) (hlt : i < w.stop) : ¬ BreaksAt chars i := by
  cases h with
  | comment starts => exact absurd rfl hw
  | word run =>
    rw [stop_word run] at hlt
    exact run.unbroken i hle hlt

namespace Laid

variable {words : List Word}

theorem piece (h : Laid chars k words) : ∀ w ∈ words, Piece chars w := by
  induction h with
  | blank gap => exact fun w hw => nomatch hw
  | comment gap starts =>
    intro w hw
    obtain rfl := List.mem_singleton.mp hw
    exact .comment starts
  | word gap run comma_iff rest ih =>
    intro w hw
    obtain rfl | hw := List.mem_cons.mp hw
    · exact .word run
    · exact ih w hw

theorem le_column (h : Laid chars k words) : ∀ w ∈ words, k ≤ w.column := by
  induction h with
  | blank gap => exact fun w hw => nomatch hw
  | comment gap starts =>
    intro w hw
    obtain rfl := List.mem_singleton.mp hw
    exact gap.le
  | word gap run comma_iff rest ih =>
    intro w hw
    obtain rfl | hw := List.mem_cons.mp hw
    · exact gap.le
    · have hrest := ih w hw
      have hgap := gap.le
      have hrun := run.lt
      omega

/-- The words stand one behind the other. -/
theorem ordered (h : Laid chars k words) : words.Pairwise fun v w => v.stop ≤ w.column := by
  induction h with
  | blank gap => exact .nil
  | comment gap starts => exact List.pairwise_singleton _ _
  | word gap run comma_iff rest ih =>
    refine .cons (fun w hw => ?_) ih
    rw [stop_word run]
    exact rest.le_column w hw

/-- What is not in a word is in a gap. -/
theorem outside (h : Laid chars k words) (hle : k ≤ i) (hlt : i < chars.length)
    (hout : ∀ w ∈ words, i < w.column ∨ w.stop ≤ i) : SeparatesAt chars i := by
  induction h with
  | blank gap => exact gap.separates i hle hlt
  | comment gap starts =>
    have hword := hout _ List.mem_cons_self
    rw [stop_comment starts] at hword
    exact gap.separates i hle (hword.resolve_right (Nat.not_le.mpr hlt))
  | word gap run comma_iff rest ih =>
    have hword := hout _ List.mem_cons_self
    rw [stop_word run] at hword
    obtain hbefore | hbehind := hword
    · exact gap.separates i hle hbefore
    · exact ih hbehind fun w hw => hout w (List.mem_cons_of_mem _ hw)

/-- No comment starts before a word. -/
theorem not_commentsAt (h : Laid chars k words) :
    ∀ w ∈ words, ∀ i, k ≤ i → i < w.column → ¬ CommentsAt chars i := by
  induction h with
  | blank gap => exact fun w hw => nomatch hw
  | comment gap starts =>
    intro w hw i hle hlt
    obtain rfl := List.mem_singleton.mp hw
    exact (gap.separates i hle hlt).not_commentsAt
  | @word k j l comma words gap run comma_iff rest ih =>
    intro w hw i hle hlt
    by_cases hgap : i < j
    · exact (gap.separates i hle hgap).not_commentsAt
    by_cases hrun : i < l
    · exact fun hcomment => run.unbroken i (Nat.le_of_not_lt hgap) hrun (.inr hcomment)
    obtain rfl | hw := List.mem_cons.mp hw
    · exact absurd hlt hgap
    · exact ih w hw i (Nat.le_of_not_lt hrun) hlt

/-- Where a comment starts, there is one. -/
theorem exists_comment (h : Laid chars k words) (hle : k ≤ i) (hi : CommentsAt chars i) :
    ∃ w ∈ words, w.token = .comment := by
  induction h with
  | blank gap => exact absurd hi (gap.separates i hle hi.lt).not_commentsAt
  | comment gap starts => exact ⟨_, List.mem_cons_self, rfl⟩
  | @word k j l comma words gap run comma_iff rest ih =>
    by_cases hgap : i < j
    · exact absurd hi (gap.separates i hle hgap).not_commentsAt
    by_cases hrun : i < l
    · exact absurd (.inr hi) (run.unbroken i (Nat.le_of_not_lt hgap) hrun)
    obtain ⟨w, hw, hcomment⟩ := ih (Nat.le_of_not_lt hrun)
    exact ⟨w, List.mem_cons_of_mem _ hw, hcomment⟩

/-- Behind some of the words, the others are laid out with the gap that tells their commas. -/
theorem tail {before after : List Word} {w : Word} (h : Laid chars k (before ++ w :: after)) :
    (w.token = .comment ∧ after = [] ∧ w.stop = chars.length ∧ CommentsAt chars w.column) ∨
    (w.token ≠ .comment ∧ (w.comma = true ↔ CommaIn chars w.stop (start chars after)) ∧
      Run chars w.column w.stop ∧ Laid chars w.stop after) := by
  generalize hwords : before ++ w :: after = words at h
  induction h generalizing before with
  | blank gap => cases before <;> cases hwords
  | comment gap starts =>
    cases before with
    | nil =>
      obtain ⟨rfl, rfl⟩ := List.cons.inj hwords
      exact .inl ⟨rfl, rfl, stop_comment starts, starts⟩
    | cons v before =>
      obtain ⟨-, hnil⟩ := List.cons.inj hwords
      cases before <;> cases hnil
  | word gap run comma_iff rest ih =>
    cases before with
    | nil =>
      obtain ⟨rfl, rfl⟩ := List.cons.inj hwords
      rw [stop_word run]
      exact .inr ⟨token_word _ _ _, comma_iff, run, rest⟩
    | cons v before =>
      obtain ⟨-, hwords⟩ := List.cons.inj hwords
      exact ih hwords

end Laid

/-! ## Protected characters -/

/-- Only an unprotected apostrophe in code starts a comment. -/
theorem eq_of_step_region {p : Place} {c : Char} (h : (p.step c).region = .comment)
    (hp : p.region ≠ .comment) : p = {} ∧ c = '\'' := by
  obtain ⟨region, escaped⟩ := p
  rw [Place.step, if_neg hp] at h
  split_ifs at h <;> simp_all

/-- Within a comment one has started. -/
theorem exists_commentsAt (h : (placeAt chars i).region = .comment) :
    ∃ j, j < i ∧ CommentsAt chars j := by
  induction i with
  | zero => cases h
  | succ i ih =>
    by_cases hbefore : (placeAt chars i).region = .comment
    · obtain ⟨j, hlt, hj⟩ := ih hbefore
      exact ⟨j, Nat.lt_succ_of_lt hlt, hj⟩
    cases hc : chars[i]? with
    | none =>
      rw [placeAt, List.take_add_one, hc] at h
      simp only [Option.toList_none, List.append_nil] at h
      exact absurd h hbefore
    | some c =>
      rw [placeAt_succ hc] at h
      obtain ⟨hplace, rfl⟩ := eq_of_step_region h hbefore
      exact ⟨i, Nat.lt_succ_self i, hplace, hc⟩

/-- What would break a word in code stands in a string or behind a backslash. -/
theorem protected_of_not_breaksAt {c : Char} (hc : chars[i]? = some c)
    (hbreak : isSeparator c = true ∨ c = '\'') (hi : ¬ BreaksAt chars i)
    (hcomment : ∀ j, j < i → ¬ CommentsAt chars j) :
    (placeAt chars i).region = .text ∨ (placeAt chars i).escaped = true := by
  have hregion : (placeAt chars i).region ≠ .comment := fun h =>
    (exists_commentsAt h).elim fun j hj => hcomment j hj.1 hj.2
  by_contra hopen
  obtain ⟨htext, hescaped⟩ := not_or.mp hopen
  have hplace : placeAt chars i = {} := by
    generalize placeAt chars i = p at *
    obtain ⟨region, escaped⟩ := p
    cases region <;> simp_all
  obtain hseparator | rfl := hbreak
  · exact hi (.inl ⟨hplace, c, hc, hseparator⟩)
  · exact hi (.inr ⟨hplace, hc⟩)

/-! ## The words of a line -/

/-- The words are the pieces of their line that separators and the comment leave. -/
structure Slices (chars : List Char) (words : List Word) : Prop where
  nonempty : ∀ w ∈ words, w.text.toList ≠ []
  /-- A word is read off the line in place. -/
  slice : ∀ w ∈ words, (chars.drop w.column).take w.text.toList.length = w.text.toList
  ordered : words.Pairwise fun v w => v.stop ≤ w.column
  /-- Outside of the words there are separators only. -/
  outside : ∀ i, i < chars.length → (∀ w ∈ words, i < w.column ∨ w.stop ≤ i) → SeparatesAt chars i
  /-- In a word, separators and apostrophes stand in strings or behind backslashes. -/
  guarded : ∀ w ∈ words, w.token ≠ .comment → ∀ i c, w.column ≤ i → i < w.stop →
    chars[i]? = some c → isSeparator c = true ∨ c = '\'' →
    (placeAt chars i).region = .text ∨ (placeAt chars i).escaped = true
  /-- Two words do not touch, unless the second is the comment. -/
  apart : ∀ before v w after, words = before ++ v :: w :: after → w.token ≠ .comment →
    v.stop < w.column
  /-- The comment is the last word, from the first unprotected apostrophe to the end. -/
  comment : ∀ before w after, words = before ++ w :: after → w.token = .comment →
    after = [] ∧ w.stop = chars.length ∧ CommentsAt chars w.column ∧
      ∀ i, i < w.column → ¬ CommentsAt chars i
  /-- An unprotected apostrophe makes a comment. -/
  commented : ∀ i, CommentsAt chars i → ∃ w ∈ words, w.token = .comment
  /-- A word has a comma when one stands before the next word or the end. -/
  comma : ∀ before w after, words = before ++ w :: after → w.token ≠ .comment →
    (w.comma = true ↔ CommaIn chars w.stop (start chars after))

namespace Laid

variable {words : List Word}

theorem guarded (h : Laid chars 0 words) {w : Word} (hw : w ∈ words) (htoken : w.token ≠ .comment)
    {c : Char} (hle : w.column ≤ i) (hlt : i < w.stop) (hc : chars[i]? = some c)
    (hbreak : isSeparator c = true ∨ c = '\'') :
    (placeAt chars i).region = .text ∨ (placeAt chars i).escaped = true := by
  have hpiece := h.piece w hw
  refine protected_of_not_breaksAt hc hbreak (hpiece.unbroken htoken hle hlt) fun j hj => ?_
  by_cases hbefore : j < w.column
  · exact h.not_commentsAt w hw j (Nat.zero_le j) hbefore
  · exact fun hcomment =>
      hpiece.unbroken htoken (Nat.le_of_not_lt hbefore) (Nat.lt_trans hj hlt) (.inr hcomment)

theorem apart {before after : List Word} {v w : Word}
    (h : Laid chars k (before ++ v :: w :: after)) (hw : w.token ≠ .comment) :
    v.stop < w.column := by
  obtain ⟨-, hnil, -⟩ | ⟨-, -, hrun, hrest⟩ := h.tail
  · cases hnil
  have hle : v.stop ≤ w.column := hrest.le_column w List.mem_cons_self
  refine Nat.lt_of_le_of_ne hle fun heq => ?_
  have hpiece := hrest.piece w List.mem_cons_self
  have hlt := hpiece.column_lt_stop
  have hend := hpiece.stop_le
  -- A break ends the first word, and none stands in the second.
  have hbreak : BreaksAt chars v.stop := hrun.ended (by omega)
  rw [heq] at hbreak
  exact hpiece.unbroken hw (Nat.le_refl _) hlt hbreak

end Laid

/-- Splitting a line loses and invents nothing. -/
theorem split_slices (line : String) : Slices line.toList (split line) := by
  have h := laid_split line
  refine
    { nonempty := fun w hw hnil => ?_
      slice := fun w hw => (h.piece w hw).slice
      ordered := h.ordered
      outside := fun i hi hout => h.outside (Nat.zero_le i) hi hout
      guarded := fun w hw htoken i c hle hlt hc hbreak => h.guarded hw htoken hle hlt hc hbreak
      apart := fun before v w after hwords hw => ?_
      comment := fun before w after hwords hw => ?_
      commented := fun i hi => h.exists_comment (Nat.zero_le i) hi
      comma := fun before w after hwords hw => ?_ }
  · have hlt := (h.piece w hw).column_lt_stop
    rw [stop, hnil] at hlt
    exact Nat.lt_irrefl _ hlt
  · rw [hwords] at h
    exact h.apart hw
  · have hbefore := h.not_commentsAt w (hwords ▸ List.mem_append_right _ List.mem_cons_self)
    rw [hwords] at h
    obtain ⟨-, hnil, hstop, hstarts⟩ | ⟨hne, -⟩ := h.tail
    · exact ⟨hnil, hstop, hstarts, fun i hlt => hbefore i (Nat.zero_le i) hlt⟩
    · exact absurd hw hne
  · rw [hwords] at h
    obtain ⟨hcomment, -⟩ | ⟨-, hcomma, -⟩ := h.tail
    · exact absurd hcomment hw
    · exact hcomma

end PropellerAsm.Word
