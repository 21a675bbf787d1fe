import PropellerAsm.Proofs.Encoding.DataList
import PropellerAsm.Proofs.Word.Spelling

/-!
# The words of data lists

A line with a data list is split at the blanks and commas between its items and nowhere else: what
would break a word stands in quotes there, and what would end the quotes stands behind a backslash.
-/
namespace PropellerAsm

/-! ## Blanks -/

namespace Text

/-- Blank characters only. -/
def Blanks (cs : List Char) : Prop :=
  ∀ c ∈ cs, isBlank c = true

instance Blanks.decidable (cs : List Char) : Decidable (Blanks cs) :=
  decidable_of_iff (cs.all isBlank = true) List.all_eq_true

theorem Blanks.expandFrom {cs : List Char} (h : Blanks cs) (column : Nat) :
    Blanks (expandFrom column cs) := by
  intro c hc
  by_cases hspace : c = ' '
  · rw [hspace]
    decide
  by_cases htab : c = '\t'
  · rw [htab]
    decide
  · exact h c ((mem_expandFrom_iff hspace htab column cs).mp hc)

theorem expandFrom_ne_nil {cs : List Char} (h : cs ≠ []) (column : Nat) :
    expandFrom column cs ≠ [] := by
  fun_cases expandFrom column cs with
  | case1 => exact absurd rfl h
  | case2 rest pad =>
    intro hnil
    have hpad := pad_pos column
    have hlength := congrArg List.length hnil
    rw [List.length_append, List.length_replicate] at hlength
    simp only [List.length_nil] at hlength
    omega
  | case3 c rest hc => exact List.cons_ne_nil _ _

theorem trimLeft_blanks {blanks : List Char} (h : Blanks blanks) (cs : List Char) :
    trimLeft (blanks ++ cs) = trimLeft cs := by
  induction blanks with
  | nil => rfl
  | cons c blanks ih =>
    obtain ⟨hc, hblanks⟩ := List.forall_mem_cons.mp h
    rw [List.cons_append, trimLeft_cons_of_blank hc]
    exact ih hblanks

end Text

/-! ## The characters of keywords and digits -/

namespace Word

theorem isOrdinary_of_name {c : Char} (hascii : c.toNat < 0x80)
    (h : Expr.isNameByte c.toUInt8 = true ∨ c = '=') : isOrdinary c = true := by
  have hall : ∀ n : Fin 128, Expr.isNameByte (Char.ofNat n).toUInt8 = true ∨ Char.ofNat n = '=' →
      isOrdinary (Char.ofNat n) = true := by decide +kernel
  have hc := hall ⟨c.toNat, hascii⟩
  rw [Char.ofNat_toNat] at hc
  exact hc h

/-- A separator is its own capital, and so no letter of a keyword. -/
theorem upperChar_of_not_ordinary {c : Char} (hascii : 0x80 ≤ c.toNat)
    (h : isOrdinary c = false) : Text.upperChar c = [c] := by
  unfold Text.upperChar
  rw [if_neg (Nat.not_lt.mpr hascii)]
  split <;> first | rfl | exact absurd h (by decide)

theorem isOrdinary_of_keyword {text : String} (h : (Keyword.find? text).isSome = true) {c : Char}
    (hc : c ∈ text.toList) : isOrdinary c = true := by
  by_cases hascii : c.toNat < 0x80
  · exact isOrdinary_of_name hascii (Keyword.byte_of_ascii h hc hascii)
  · by_contra hordinary
    have hupper := upperChar_of_not_ordinary (Nat.le_of_not_lt hascii)
      (Bool.eq_false_iff.mpr hordinary)
    obtain ⟨row, hrow, hname⟩ := Keyword.exists_row h
    have hmem : c ∈ row.1.toList := by
      rw [hname, Text.upper, String.toList_ofList]
      exact List.mem_flatMap.mpr ⟨c, hc, hupper ▸ List.mem_singleton.mpr rfl⟩
    obtain ⟨hbytes, -, -⟩ := Keyword.table_bytes row hrow
    have hlow := List.all_eq_true.mp hbytes
    rw [Utf8.toList_of_ascii fun b hb => of_decide_eq_true (hlow b hb)] at hmem
    obtain ⟨b, hb, rfl⟩ := List.mem_map.mp hmem
    exact hascii (Utf8.forall_byte (p := fun b => b.toNat < 128 → (Char.ofNat b.toNat).toNat < 0x80)
      (by decide +kernel) b (of_decide_eq_true (hlow b hb)))

/-- Digits mean nothing but themselves in a word. -/
theorem isOrdinary_of_run {digits : List Char}
    (h : Expr.Run .hexadecimal (Utf8.encodeChars digits)) {c : Char} (hc : c ∈ digits) :
    isOrdinary c = true := by
  have hdigit : ∀ b : UInt8, b = '_'.toUInt8 ∨ (Radix.hexadecimal.digit? b).isSome = true →
      b.toNat < 0x80 ∧ Expr.isNameByte b = true :=
    fun b => Utf8.forall_byte (p := fun b => b = '_'.toUInt8 ∨
      (Radix.hexadecimal.digit? b).isSome = true → b.toNat < 0x80 ∧ Expr.isNameByte b = true)
      (by decide +kernel) b
  have hbytes : ∀ b ∈ String.utf8EncodeChar c, b.toNat < 0x80 ∧ Expr.isNameByte b = true :=
    fun b hb => hdigit b (h b (List.mem_flatMap.mpr ⟨c, hc, hb⟩))
  obtain ⟨hchar, hascii⟩ := Utf8.encodeChar_of_ascii fun b hb => (hbytes b hb).1
  rw [Utf8.encodeChar_ascii hascii] at hbytes
  exact isOrdinary_of_name hascii (.inl (hbytes _ (List.mem_singleton.mpr rfl)).2)

/-! ## Scanning items -/

theorem Tail.push_push (t : Tail) (cs ds : List Char) :
    (t.push ds).push cs = t.push (cs ++ ds) := by
  unfold Tail.push
  rw [List.append_assoc]

/-- Between quotes a text is taken as it is written, up to the closing quote. -/
theorem scan_content (content : List Char) (column : Nat) (cs : List Char) :
    scan column true (content.flatMap Directive.Item.quoted ++ ('"' :: cs)) =
      (scan (column + (content.flatMap Directive.Item.quoted).length + 1) false cs).push
        (content.flatMap Directive.Item.quoted ++ ['"']) := by
  induction content generalizing column with
  | nil => exact scan_quote column true cs
  | cons c content ih =>
    rw [List.flatMap_cons, List.append_assoc, List.length_append, List.append_assoc,
      ← Tail.push_push, ← Nat.add_assoc]
    by_cases hc : c = '"' ∨ c = '\\'
    · have hquoted : Directive.Item.quoted c = ['\\', c] := if_pos hc
      rw [hquoted]
      exact (scan_escape column true c _).trans (congrArg (Tail.push · _) (ih (column + 2)))
    · have hquoted : Directive.Item.quoted c = [c] := if_neg hc
      obtain ⟨hquote, hescape⟩ := not_or.mp hc
      rw [hquoted]
      exact (scan_quoted column hescape hquote _).trans (congrArg (Tail.push · _) (ih (column + 1)))

end Word

namespace Directive

/-- An item is taken as it is written. -/
theorem Item.Spelled.scan {item : Item} {chars : List Char} (h : item.Spelled chars)
    (column : Nat) (cs : List Char) : Word.scan column false (chars ++ cs) =
      (Word.scan (column + chars.length) false cs).push chars := by
  cases h with
  | @text content _ =>
    rw [List.cons_append, List.append_assoc, Word.scan_quote, List.singleton_append, Bool.not_false,
      Word.scan_content, Word.Tail.push_push, List.singleton_append, List.length_cons,
      List.length_append, List.length_singleton]
    congr 2
    omega
  | number run led =>
    refine Word.scan_ordinary (fun c hc => ?_) column cs
    obtain rfl | hc := List.mem_cons.mp hc
    · decide
    · exact Word.isOrdinary_of_run run hc

theorem Item.Spelled.ne_nil {item : Item} {chars : List Char} (h : item.Spelled chars) :
    chars ≠ [] := by
  obtain ⟨c, cs, rfl, -⟩ := h.head
  exact List.cons_ne_nil c cs

theorem Item.Spelled.tabless {item : Item} {chars : List Char} (h : item.Spelled chars) :
    '\t' ∉ chars := by
  cases h with
  | @text content tabless =>
    intro hmem
    obtain hmem | hmem := List.mem_append.mp (List.mem_of_ne_of_mem (by decide) hmem)
    · obtain ⟨c, hc, htab⟩ := List.mem_flatMap.mp hmem
      have hself : '\t' = c := by
        unfold quoted at htab
        split at htab
        · exact List.mem_singleton.mp (List.mem_of_ne_of_mem (by decide) htab)
        · exact List.mem_singleton.mp htab
      exact tabless (hself ▸ hc)
    · exact absurd (List.mem_singleton.mp hmem) (by decide)
  | number run led =>
    intro hmem
    have hmem := List.mem_of_ne_of_mem (by decide) hmem
    exact absurd (Word.isOrdinary_of_run run hmem) (by decide)

/-! ## Lines -/

/-- The items with commas between them, and blanks before and behind every item. -/
inductive Listed : List Item → List Char → Prop where
  | last {item : Item} {before chars behind : List Char} (blank : Text.Blanks before)
      (spelled : item.Spelled chars) (blank' : Text.Blanks behind) :
      Listed [item] (before ++ (chars ++ behind))
  | more {item : Item} {items : List Item} {before chars behind list : List Char}
      (blank : Text.Blanks before) (spelled : item.Spelled chars) (blank' : Text.Blanks behind)
      (rest : Listed items list) :
      Listed (item :: items) (before ++ (chars ++ (behind ++ ',' :: list)))

/-- A line with a directive that stores items of a size, in any case, and the items behind it. -/
inductive DataLine (size : Nat) (items : List Item) : List Char → Prop where
  | mk {d : Directive} {before name gap list : List Char} (blank : Text.Blanks before)
      (keyword : Keyword.find? (String.ofList name) = some (.directive d))
      (itemSize : d.itemSize? = some size) (blank' : Text.Blanks gap) (apart : gap ≠ [])
      (listed : Listed items list) : DataLine size items (before ++ (name ++ (gap ++ list)))

/-- Tabs between items expand to other blanks, and no others stand in the list. -/
theorem Listed.expandFrom {items : List Item} {list : List Char} (h : Listed items list)
    (column : Nat) : Listed items (Text.expandFrom column list) := by
  induction h generalizing column with
  | last blank spelled blank' =>
    rw [Text.expandFrom_append, Text.expandFrom_append,
      Text.expandFrom_of_not_mem spelled.tabless]
    exact .last (blank.expandFrom _) spelled (blank'.expandFrom _)
  | more blank spelled blank' rest ih =>
    rw [Text.expandFrom_append, Text.expandFrom_append, Text.expandFrom_append,
      Text.expandFrom_of_not_mem spelled.tabless]
    exact .more (blank.expandFrom _) spelled (blank'.expandFrom _) (ih _)

theorem DataLine.expandFrom {size : Nat} {items : List Item} {line : List Char}
    (h : DataLine size items line) (column : Nat) :
    DataLine size items (Text.expandFrom column line) := by
  obtain @⟨d, before, name, gap, list, blank, keyword, itemSize, blank', apart, listed⟩ := h
  have htab : '\t' ∉ name := by
    intro hmem
    rw [← String.toList_ofList (l := name)] at hmem
    exact absurd (Word.isOrdinary_of_keyword (Option.isSome_of_eq_some keyword) hmem) (by decide)
  rw [Text.expandFrom_append, Text.expandFrom_append, Text.expandFrom_append,
    Text.expandFrom_of_not_mem htab]
  exact .mk (blank.expandFrom _) keyword itemSize (blank'.expandFrom _)
    (Text.expandFrom_ne_nil apart _) (listed.expandFrom _)

end Directive

/-! ## Splitting lines -/

namespace Word

variable {P : List Word → Prop}

namespace Tail

variable {t : Tail}

/-- Where a scan starts, the words are as wanted, and no comma comes before them. -/
structure Starts (P : List Word → Prop) (t : Tail) : Prop where
  words : ∀ column, P (t.close column)
  comma : (t.head.isEmpty && t.comma) = false

/-- Behind a word, the comma and the words after it are as wanted. -/
structure Ends (comma : Bool) (P : List Word → Prop) (t : Tail) : Prop where
  head : t.head = []
  comma : t.comma = comma
  words : P t.words

theorem Starts.imp {Q : List Word → Prop} (h : t.Starts P)
    (himp : ∀ words, P words → Q words) : t.Starts Q :=
  ⟨fun column => himp _ (h.words column), h.comma⟩

/-- A separator before the words comes to their comma. -/
theorem Starts.separated (h : t.Starts P) (c : Char) (column : Nat) :
    (t.separated c column).Ends (c == ',') P := by
  refine ⟨rfl, ?_, h.words column⟩
  show (c == ',' || (t.head.isEmpty && t.comma)) = (c == ',')
  rw [h.comma, Bool.or_false]

theorem Ends.starts (h : t.Ends false P) : t.Starts P := by
  refine ⟨fun column => ?_, ?_⟩
  · rw [close_of_nil h.head]
    exact h.words
  · rw [h.comma, Bool.and_false]

/-- A blank behind a word makes no difference. -/
theorem Ends.separated {comma : Bool} (h : t.Ends comma P) {c : Char} (hc : c ≠ ',')
    (column : Nat) : (t.separated c column).Ends comma P := by
  refine ⟨rfl, ?_, ?_⟩
  · show (c == ',' || (t.head.isEmpty && t.comma)) = comma
    rw [h.head, h.comma, beq_false_of_ne hc]
    rfl
  · show P (t.close column)
    rw [close_of_nil h.head]
    exact h.words

/-- A text before the words is one word more. -/
theorem Ends.push {comma : Bool} (h : t.Ends comma P) {text : List Char} (htext : text ≠ []) :
    (t.push text).Starts fun words => ∃ word rest, words = word :: rest ∧
      word.text.toList = text ∧ word.token = .ofText word.text ∧ word.comma = comma ∧
        P rest := by
  have hhead : (t.push text).head = text := by
    rw [Tail.push, h.head, List.append_nil]
  refine ⟨fun column => ?_, ?_⟩
  · rw [close_of_ne_nil (hhead.symm ▸ htext), hhead]
    exact ⟨_, _, rfl, String.toList_ofList, token_ofText _ _ _, h.comma, h.words⟩
  · rw [hhead, List.isEmpty_eq_false_iff.mpr htext, Bool.false_and]

end Tail

theorem ne_comma_of_blank {c : Char} (h : Text.isBlank c = true) : c ≠ ',' := by
  rintro rfl
  exact absurd h (by decide)

theorem isSeparator_of_blank {c : Char} (h : Text.isBlank c = true) : isSeparator c = true := by
  rw [isSeparator, h, Bool.or_true]

/-- A blank before the words ends the word before them. -/
theorem ends_blank {c : Char} (hc : Text.isBlank c = true) {column : Nat} {cs : List Char}
    (h : (scan (column + 1) false cs).Starts P) : (scan column false (c :: cs)).Ends false P := by
  have hends := h.separated c (column + 1)
  rwa [beq_false_of_ne (ne_comma_of_blank hc), ← scan_separator column (isSeparator_of_blank hc)]
    at hends

/-- Blanks before the words make no difference. -/
theorem starts_blanks {blanks : List Char} (hblanks : Text.Blanks blanks) {cs : List Char}
    (h : ∀ column, (scan column false cs).Starts P) (column : Nat) :
    (scan column false (blanks ++ cs)).Starts P := by
  induction blanks generalizing column with
  | nil => exact h column
  | cons c blanks ih =>
    obtain ⟨hc, hblanks⟩ := List.forall_mem_cons.mp hblanks
    exact (ends_blank hc (ih hblanks (column + 1))).starts

/-- One blank or more before the words end the word before them. -/
theorem ends_gap {gap : List Char} (hblanks : Text.Blanks gap) (hgap : gap ≠ []) {cs : List Char}
    (h : ∀ column, (scan column false cs).Starts P) (column : Nat) :
    (scan column false (gap ++ cs)).Ends false P := by
  obtain ⟨c, gap, rfl⟩ := List.exists_cons_of_ne_nil hgap
  obtain ⟨hc, hblanks⟩ := List.forall_mem_cons.mp hblanks
  exact ends_blank hc (starts_blanks hblanks h (column + 1))

/-- Blanks behind a word make no difference. -/
theorem ends_blanks {blanks : List Char} (hblanks : Text.Blanks blanks) {comma : Bool}
    {cs : List Char} (h : ∀ column, (scan column false cs).Ends comma P) (column : Nat) :
    (scan column false (blanks ++ cs)).Ends comma P := by
  induction blanks generalizing column with
  | nil => exact h column
  | cons c blanks ih =>
    obtain ⟨hc, hblanks⟩ := List.forall_mem_cons.mp hblanks
    rw [List.cons_append, scan_separator column (isSeparator_of_blank hc)]
    exact (ih hblanks (column + 1)).separated (ne_comma_of_blank hc) (column + 1)

/-- A text that is taken as it is written is a word, up to where the word ends. -/
theorem starts_word {blanks text : List Char} (hblanks : Text.Blanks blanks) (htext : text ≠ [])
    (hscan : ∀ column cs, scan column false (text ++ cs) =
      (scan (column + text.length) false cs).push text) {comma : Bool} {cs : List Char}
    (h : ∀ column, (scan column false cs).Ends comma P) (column : Nat) :
    (scan column false (blanks ++ (text ++ cs))).Starts fun words => ∃ word rest,
      words = word :: rest ∧ word.text.toList = text ∧ word.token = .ofText word.text ∧
        word.comma = comma ∧ P rest := by
  refine starts_blanks hblanks (fun column => ?_) column
  rw [hscan]
  exact (h _).push htext

end Word

namespace Directive

/-- The words of a list are its items. -/
theorem Listed.starts {items : List Item} {list : List Char} (h : Listed items list)
    (column : Nat) : (Word.scan column false list).Starts (Lists items) := by
  induction h generalizing column with
  | last blank spelled blank' =>
    have hend : ∀ column, (Word.scan column false []).Ends false (· = []) :=
      fun column => ⟨rfl, rfl, rfl⟩
    have hbehind := Word.ends_blanks blank' hend
    rw [List.append_nil] at hbehind
    refine (Word.starts_word blank spelled.ne_nil spelled.scan hbehind column).imp ?_
    rintro words ⟨word, rest, rfl, htext, htoken, hcomma, rfl⟩
    exact .last (htext ▸ spelled) htoken hcomma
  | @more item items before chars behind list blank spelled blank' rest ih =>
    have hcomma : ∀ column, (Word.scan column false (',' :: list)).Ends true (Lists items) := by
      intro column
      rw [Word.scan_separator column (by decide)]
      exact (ih (column + 1)).separated ',' (column + 1)
    have hbehind := Word.ends_blanks blank' hcomma
    refine (Word.starts_word blank spelled.ne_nil spelled.scan hbehind column).imp ?_
    rintro words ⟨word, rest, rfl, htext, htoken, hcomma, hrest⟩
    exact .more (htext ▸ spelled) htoken hcomma hrest

/-- A line with a data list consists of the directive and the items, and opens no block comment. -/
theorem DataLine.split {size : Nat} {items : List Item} {line : String}
    (h : DataLine size items line.toList) : ∃ d first words,
      Block.closed.split line = (some (first :: words), .closed) ∧
      first.token = .keyword (.directive d) ∧ d.itemSize? = some size ∧ Lists items words := by
  generalize hline : line.toList = chars at h
  obtain @⟨d, before, name, gap, list, blank, keyword, itemSize, blank', apart, listed⟩ := h
  have hkeyword := Option.isSome_of_eq_some keyword
  have hordinary : ∀ c ∈ name, Word.isOrdinary c = true := fun c hc =>
    Word.isOrdinary_of_keyword hkeyword (String.toList_ofList.symm ▸ hc)
  have hname : name ≠ [] := by
    rintro rfl
    obtain ⟨b, rest, hencode, -⟩ := Keyword.exists_head hkeyword
    cases hencode
  have hhead : (Text.trimLeft line.toList).head? ≠ some '{' := by
    obtain ⟨c, more, rfl⟩ := List.exists_cons_of_ne_nil hname
    have hc := hordinary c List.mem_cons_self
    rw [hline, Text.trimLeft_blanks blank, List.cons_append,
      Text.trimLeft_cons_of_not_blank (Word.not_isBlank_of_isOrdinary hc)]
    rintro hbrace
    obtain rfl := Option.some.inj hbrace
    exact absurd hc (by decide)
  -- The directive is the first word, and what follows it is scanned behind the gap.
  have hstarts := Word.starts_word blank hname (Word.scan_ordinary hordinary)
    (Word.ends_gap blank' apart listed.starts) 0
  obtain ⟨word, rest, hwords, htext, htoken, -, hrest⟩ := hstarts.words 0
  have hsplit : Word.split line = word :: rest := by
    rw [Word.split, hline, hwords]
  refine ⟨d, word, rest, ?_, ?_, itemSize, hrest⟩
  · unfold Block.split
    dsimp only
    rw [if_neg hhead, hsplit]
  · rw [← htext, String.ofList_toList] at keyword
    rw [htoken, Token.ofText_of_find? keyword]

end Directive

end PropellerAsm
