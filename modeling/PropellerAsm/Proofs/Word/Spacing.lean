import Mathlib.Data.List.Forall2
import PropellerAsm.Proofs.Text.Layout
import PropellerAsm.Word.Split

/-!
# Spaces between words

Read from the left, every place of a line lies in code, in a string or in the comment, and may be
protected by a backslash right before it.  A space that stands unprotected in code separates words,
and then it does not matter how many spaces stand there: the words behind them are the same, at
other columns.  Tabs stand for spaces up to the next tab stop, so a change of columns changes how
many spaces they stand for; this is no other change as long as no tab behind it is protected or
stands in a string.
-/
namespace PropellerAsm

namespace Word

/-! ## Places of a line -/

/-- What the characters of a line belong to. -/
inductive Region where
  | code
  | text
  | comment
deriving DecidableEq, Repr

/-- A place of a line: what the next character belongs to, and whether a backslash protects it. -/
structure Place where
  region : Region := .code
  escaped : Bool := false
deriving DecidableEq, Repr

namespace Place

/-- The place behind a character. -/
def step (p : Place) (c : Char) : Place :=
  if p.region = .comment then p
  else if p.escaped then { p with escaped := false }
  else if c = '\\' then { p with escaped := true }
  else if c = '"' then { p with region := if p.region = .text then .code else .text }
  else if c = '\'' ∧ p.region = .code then { p with region := .comment }
  else p

/-- The place behind some characters. -/
def behind (p : Place) (cs : List Char) : Place :=
  cs.foldl step p

/-- No tab is protected, and none stands in a string. -/
def TabsFree : Place → List Char → Prop
  | _, [] => True
  | p, c :: cs => (c = '\t' → p.escaped = false ∧ p.region ≠ .text) ∧ TabsFree (p.step c) cs

instance TabsFree.decidable : ∀ (p : Place) (cs : List Char), Decidable (TabsFree p cs)
  | _, [] => .isTrue trivial
  | p, c :: cs =>
    have := TabsFree.decidable (p.step c) cs
    inferInstanceAs (Decidable (_ ∧ _))

/-- A space or a tab uses up a protection, and does nothing else. -/
theorem step_blank {c : Char} (h : c = ' ' ∨ c = '\t') {p : Place} (hp : p.region ≠ .comment) :
    p.step c = { p with escaped := false } := by
  obtain ⟨region, escaped⟩ := p
  obtain rfl | rfl := h <;> cases escaped <;> simp_all [step]

theorem step_of_comment {p : Place} (h : p.region = .comment) (c : Char) : p.step c = p :=
  if_pos h

theorem behind_of_comment {p : Place} (h : p.region = .comment) (cs : List Char) :
    p.behind cs = p := by
  induction cs with
  | nil => rfl
  | cons c cs ih =>
    show (p.step c).behind cs = p
    rw [step_of_comment h, ih]

theorem behind_append (p : Place) (cs ds : List Char) :
    p.behind (cs ++ ds) = (p.behind cs).behind ds :=
  List.foldl_append

theorem behind_spaces {n : Nat} (hn : 0 < n) {p : Place} (hp : p.region ≠ .comment) :
    p.behind (List.replicate n ' ') = { p with escaped := false } := by
  induction n generalizing p with
  | zero => omega
  | succ n ih =>
    show (p.step ' ').behind (List.replicate n ' ') = _
    rw [step_blank (.inl rfl) hp]
    cases n with
    | zero => rfl
    | succ n => exact ih (by omega) hp

/-- Expanding the tabs does not change the place that is reached. -/
theorem behind_expandFrom (column : Nat) (cs : List Char) (p : Place) :
    p.behind (Text.expandFrom column cs) = p.behind cs := by
  by_cases hp : p.region = .comment
  · rw [behind_of_comment hp, behind_of_comment hp]
  fun_induction Text.expandFrom column cs generalizing p with
  | case1 => rfl
  | case2 column rest pad ih =>
    rw [behind_append, behind_spaces (Text.pad_pos column) hp]
    show _ = (p.step '\t').behind rest
    rw [step_blank (.inr rfl) hp]
    exact ih _ hp
  | case3 column c rest _ ih =>
    show (p.step c).behind _ = (p.step c).behind rest
    by_cases hc : (p.step c).region = .comment
    · rw [behind_of_comment hc, behind_of_comment hc]
    · exact ih _ hc

end Place

/-! ## Other spaces -/

/-- The second text is the first one with other numbers of spaces where they separate words, and
with another comment. -/
inductive Respaced : Place → List Char → List Char → Prop where
  | nil {p} : Respaced p [] []
  | comment {p xs ys} (region : p.region = .comment) : Respaced p xs ys
  | char {p c xs ys} (rest : Respaced (p.step c) xs ys) : Respaced p (c :: xs) (c :: ys)
  | spaces {p m n xs ys} (code : p = {}) (some : 0 < m) (some' : 0 < n)
      (rest : Respaced p xs ys) :
      Respaced p (List.replicate m ' ' ++ xs) (List.replicate n ' ' ++ ys)

namespace Respaced

theorem append_left {p : Place} {cs xs ys : List Char} (h : Respaced (p.behind cs) xs ys) :
    Respaced p (cs ++ xs) (cs ++ ys) := by
  induction cs generalizing p with
  | nil => exact h
  | cons c cs ih => exact .char (ih h)

/-- From another column on, tabs expand to other spaces. -/
theorem expandFrom {p : Place} {cs : List Char} (h : p.TabsFree cs) (column column' : Nat) :
    Respaced p (Text.expandFrom column cs) (Text.expandFrom column' cs) := by
  induction cs generalizing p column column' with
  | nil => exact .nil
  | cons c cs ih =>
    obtain ⟨htab, hrest⟩ := h
    by_cases hcomment : p.region = .comment
    · exact .comment hcomment
    by_cases hc : c = '\t'
    · -- A tab in code separates words.
      subst hc
      obtain ⟨hescaped, htext⟩ := htab rfl
      obtain ⟨region, escaped⟩ := p
      have hcode : region = .code := by
        cases region with
        | code => rfl
        | text => exact absurd rfl htext
        | comment => exact absurd rfl hcomment
      subst hcode hescaped
      exact .spaces rfl (Text.pad_pos column) (Text.pad_pos column') (ih hrest _ _)
    · rw [Text.expandFrom, Text.expandFrom]
      · exact .char (ih hrest _ _)
      · exact hc
      · exact hc

/-- Other spaces where some separate words, and the tabs behind them expanded. -/
theorem spaced {before after : List Char} (hplace : Place.behind {} before = {})
    (htabs : Place.TabsFree {} after) (m n : Nat) :
    Respaced {} (Text.expandFrom 0 (before ++ List.replicate (m + 1) ' ' ++ after))
      (Text.expandFrom 0 (before ++ List.replicate (n + 1) ' ' ++ after)) := by
  have hsplit : ∀ k, Text.expandFrom 0 (before ++ List.replicate k ' ' ++ after) =
      Text.expandFrom 0 before ++ (List.replicate k ' ' ++
        Text.expandFrom ((Text.expandFrom 0 before).length + k) after) := by
    intro k
    rw [List.append_assoc, Text.expandFrom_append, Text.expandFrom_spaces, Nat.zero_add]
  rw [hsplit, hsplit]
  refine append_left ?_
  rw [Place.behind_expandFrom, hplace]
  exact .spaces rfl (by omega) (by omega) (expandFrom htabs _ _)

end Respaced

/-! ## Words of other spaces -/

/-- The same word at another column; the text of a comment may differ. -/
structure Similar (v w : Word) : Prop where
  token : v.token = w.token
  comma : v.comma = w.comma
  text : v.token = .comment ∨ v.text = w.text

/-- The same finds at other columns. -/
structure Tail.Similar (t u : Tail) : Prop where
  head : t.head = u.head
  comma : t.comma = u.comma
  words : List.Forall₂ Word.Similar t.words u.words

namespace Tail

theorem close_of_nil {t : Tail} (h : t.head = []) (column : Nat) : t.close column = t.words :=
  if_pos (List.isEmpty_iff.mpr h)

theorem close_of_ne_nil {t : Tail} (h : t.head ≠ []) (column : Nat) :
    t.close column = .ofText (String.ofList t.head) column t.comma :: t.words :=
  if_neg (mt List.isEmpty_iff.mp h)

theorem Similar.close {t u : Tail} (h : t.Similar u) (column column' : Nat) :
    List.Forall₂ Word.Similar (t.close column) (u.close column') := by
  unfold Tail.close
  rw [h.head, h.comma]
  split
  · exact h.words
  · exact .cons ⟨rfl, rfl, .inr rfl⟩ h.words

theorem Similar.push {t u : Tail} (h : t.Similar u) (cs : List Char) :
    (t.push cs).Similar (u.push cs) := by
  refine ⟨?_, h.comma, h.words⟩
  show cs ++ t.head = cs ++ u.head
  rw [h.head]

/-- What a separator makes of what stands behind it. -/
def separated (t : Tail) (c : Char) (column : Nat) : Tail :=
  { comma := c == ',' || (t.head.isEmpty && t.comma), words := t.close column }

theorem Similar.separated {t u : Tail} (h : t.Similar u) (c : Char) (column column' : Nat) :
    (t.separated c column).Similar (u.separated c column') := by
  refine ⟨rfl, ?_, h.close column column'⟩
  unfold Tail.separated
  rw [h.head, h.comma]

/-- A space before a separator makes no difference. -/
theorem separated_separated (t : Tail) (c : Char) (column column' : Nat) :
    (t.separated c column).separated ' ' column' = t.separated c column := by
  simp [Tail.separated, Tail.close]

end Tail

/-! ### The scan, character by character -/

theorem scan_escape (column : Nat) (quoted : Bool) (c : Char) (cs : List Char) :
    scan column quoted ('\\' :: c :: cs) = (scan (column + 2) quoted cs).push ['\\', c] := by
  rw [scan]

theorem scan_quote (column : Nat) (quoted : Bool) (cs : List Char) :
    scan column quoted ('"' :: cs) = (scan (column + 1) (!quoted) cs).push ['"'] := by
  rw [scan] <;> simp

theorem scan_quoted (column : Nat) {c : Char} (hescape : c ≠ '\\') (hquote : c ≠ '"')
    (cs : List Char) : scan column true (c :: cs) = (scan (column + 1) true cs).push [c] := by
  rw [scan] <;> simp [hescape, hquote]

theorem scan_comment (column : Nat) (cs : List Char) :
    scan column false ('\'' :: cs) =
      { words := [Word.comment (String.ofList ('\'' :: cs)) column] } := by
  rw [scan] <;> simp

theorem scan_separator (column : Nat) {c : Char} (hc : isSeparator c = true) (cs : List Char) :
    scan column false (c :: cs) = (scan (column + 1) false cs).separated c (column + 1) := by
  have hescape : c ≠ '\\' := by rintro rfl; exact absurd hc (by decide)
  have hquote : c ≠ '"' := by rintro rfl; exact absurd hc (by decide)
  have hcomment : c ≠ '\'' := by rintro rfl; exact absurd hc (by decide)
  rw [scan]
  · simp [hquote, hcomment, hc, Tail.separated]
  · simp [hescape]

/-- Spaces in code separate words, however many there are. -/
theorem scan_spaces (n : Nat) (column : Nat) (cs : List Char) :
    scan column false (List.replicate (n + 1) ' ' ++ cs) =
      (scan (column + (n + 1)) false cs).separated ' ' (column + (n + 1)) := by
  induction n generalizing column with
  | zero => exact scan_separator column (by decide) cs
  | succ n ih =>
    rw [List.replicate_succ, List.cons_append, scan_separator column (by decide), ih,
      Tail.separated_separated, Nat.add_right_comm column 1]
    rfl

theorem scan_code (column : Nat) {c : Char} (hescape : c ≠ '\\') (hquote : c ≠ '"')
    (hcomment : c ≠ '\'') (hc : isSeparator c = false) (cs : List Char) :
    scan column false (c :: cs) = (scan (column + 1) false cs).push [c] := by
  rw [scan] <;> simp [hescape, hquote, hcomment, hc]

namespace Place

/-- The backslash that protects the next character. -/
def pending (p : Place) : List Char :=
  if p.escaped then ['\\'] else []

/-- The place lies in a string. -/
def quoted (p : Place) : Bool :=
  p.region == .text

end Place

/-- A character that is read in the same place of both lines. -/
theorem scan_char {p : Place} (hp : p.region ≠ .comment) {c : Char} {xs ys : List Char}
    (ih : (p.step c).region ≠ .comment → ∀ column column',
      (scan column (p.step c).quoted ((p.step c).pending ++ xs)).Similar
        (scan column' (p.step c).quoted ((p.step c).pending ++ ys)))
    (column column' : Nat) :
    (scan column p.quoted (p.pending ++ c :: xs)).Similar
      (scan column' p.quoted (p.pending ++ c :: ys)) := by
  obtain ⟨region, escaped⟩ := p
  unfold Place.step at ih
  rw [if_neg hp] at ih
  dsimp only at ih
  cases escaped with
  | true =>
    -- The backslash is read together with the character.
    rw [if_pos rfl] at ih
    show (scan column _ ('\\' :: c :: xs)).Similar (scan column' _ ('\\' :: c :: ys))
    rw [scan_escape, scan_escape]
    exact (ih hp _ _).push _
  | false =>
    rw [if_neg Bool.false_ne_true] at ih
    show (scan column _ (c :: xs)).Similar (scan column' _ (c :: ys))
    by_cases hescape : c = '\\'
    · subst hescape
      rw [if_pos rfl] at ih
      exact ih hp column column'
    rw [if_neg hescape] at ih
    cases region with
    | comment => exact absurd rfl hp
    | text =>
      show (scan column true (c :: xs)).Similar (scan column' true (c :: ys))
      by_cases hquote : c = '"'
      · subst hquote
        rw [if_pos rfl] at ih
        rw [scan_quote, scan_quote]
        exact (ih (by decide) _ _).push _
      · simp only [if_neg hquote, reduceCtorEq, and_false, if_false] at ih
        rw [scan_quoted column hescape hquote, scan_quoted column' hescape hquote]
        exact (ih hp _ _).push _
    | code =>
      show (scan column false (c :: xs)).Similar (scan column' false (c :: ys))
      by_cases hquote : c = '"'
      · subst hquote
        rw [if_pos rfl] at ih
        rw [scan_quote, scan_quote]
        exact (ih (by decide) _ _).push _
      rw [if_neg hquote] at ih
      by_cases hapostrophe : c = '\''
      · subst hapostrophe
        rw [scan_comment, scan_comment]
        exact ⟨rfl, rfl, .cons ⟨rfl, rfl, .inl rfl⟩ .nil⟩
      · rw [if_neg (by simp [hapostrophe])] at ih
        cases hseparator : isSeparator c with
        | true =>
          rw [scan_separator column hseparator, scan_separator column' hseparator]
          exact (ih hp _ _).separated c _ _
        | false =>
          rw [scan_code column hescape hquote hapostrophe hseparator,
            scan_code column' hescape hquote hapostrophe hseparator]
          exact (ih hp _ _).push _

/-- The words are the same, at other columns. -/
theorem scan_respaced {p : Place} {xs ys : List Char} (h : Respaced p xs ys)
    (hp : p.region ≠ .comment) (column column' : Nat) :
    (scan column p.quoted (p.pending ++ xs)).Similar
      (scan column' p.quoted (p.pending ++ ys)) := by
  induction h generalizing column column' with
  | @nil p =>
    unfold Place.pending
    split
    · cases p.quoted with
      | true => exact ⟨rfl, rfl, .nil⟩
      | false => exact ⟨rfl, rfl, .nil⟩
    · exact ⟨rfl, rfl, .nil⟩
  | comment region => exact absurd region hp
  | char rest ih => exact scan_char hp ih column column'
  | @spaces p m n xs ys code some some' rest ih =>
    subst code
    obtain ⟨m, rfl⟩ : ∃ k, m = k + 1 := ⟨m - 1, by omega⟩
    obtain ⟨n, rfl⟩ : ∃ k, n = k + 1 := ⟨n - 1, by omega⟩
    show (scan column false (List.replicate (m + 1) ' ' ++ xs)).Similar
      (scan column' false (List.replicate (n + 1) ' ' ++ ys))
    rw [scan_spaces, scan_spaces]
    exact (ih hp _ _).separated ' ' _ _

theorem split_respaced {xs ys : List Char} (h : Respaced {} xs ys) :
    List.Forall₂ Similar (split (String.ofList xs)) (split (String.ofList ys)) := by
  have hscan := scan_respaced h (by decide) 0 0
  unfold split
  rw [String.toList_ofList, String.toList_ofList]
  exact hscan.close 0 0

/-- The line with `n` more spaces where it has one between `before` and `after`. -/
def spaced (before after : List Char) (n : Nat) : String :=
  String.ofList (before ++ List.replicate (n + 1) ' ' ++ after)

end Word

/-! ## Lines with more spaces -/

namespace Block

theorem split_of_braces (b : Block) {line line' : String}
    (hhead : (Text.trimLeft line.toList).head? = (Text.trimLeft line'.toList).head?)
    (hclose : '}' ∈ line.toList ↔ '}' ∈ line'.toList)
    (hwords : List.Forall₂ Word.Similar (Word.split line) (Word.split line')) :
    (b.split line').2 = (b.split line).2 ∧
      List.Forall₂ Word.Similar ((b.split line).1.getD []) ((b.split line').1.getD []) := by
  have hcontains : line'.toList.contains '}' = line.toList.contains '}' := by
    rw [Bool.eq_iff_iff, List.contains_iff_mem, List.contains_iff_mem, hclose]
  unfold split
  rw [hcontains, hhead]
  cases b with
  | opened => exact ⟨rfl, .nil⟩
  | closed =>
    dsimp only
    split
    · exact ⟨rfl, .nil⟩
    · exact ⟨rfl, hwords⟩

/-- A line has the same words, and opens or closes the same block comments, however many spaces
separate two words. -/
theorem split_spaced (b : Block) {before after : List Char}
    (hplace : Word.Place.behind {} before = {}) (htabs : Word.Place.TabsFree {} after)
    (m n : Nat) :
    (b.split (Text.expandTabs (Word.spaced before after n))).2 =
      (b.split (Text.expandTabs (Word.spaced before after m))).2 ∧
    List.Forall₂ Word.Similar
      ((b.split (Text.expandTabs (Word.spaced before after m))).1.getD [])
      ((b.split (Text.expandTabs (Word.spaced before after n))).1.getD []) := by
  apply split_of_braces
  · simp only [Word.spaced, Text.expandTabs, String.toList_ofList, Text.head?_trimLeft_expandFrom,
      Text.head?_trimLeft_lengthened]
  · simp only [Word.spaced, Text.expandTabs, String.toList_ofList]
    rw [Text.mem_expandFrom_iff (by decide) (by decide), Text.mem_expandFrom_iff (by decide)
      (by decide)]
    simp
  · exact Word.split_respaced (by
      simp only [Word.spaced, String.toList_ofList]
      exact Word.Respaced.spaced hplace htabs m n)

end Block

end PropellerAsm
